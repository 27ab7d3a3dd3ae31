import Titus.System.Invariant

/-! Every step keeps what holds of tasks, results and control together. -/

namespace Titus.System

open Results (BufferElt SameAccount submitResults)

variable {n : ℕ} {cfg : Config n} {net : Results.Network n} {s s' : State n} {r : Fin n}

/-! ### The results of a rank -/

section Account

variable {t t' : Tasks.RankTasks n} {u u' : Results.RankResults n} {e : BufferElt n}

/-- The account of a rank is about its sessions, not about its tasks. -/
theorem AccountOk.setTasks (h : AccountOk cfg r t u) (hsess : t'.session = t.session)
    (hfin : t'.finished = t.finished) : AccountOk cfg r t' u := by
  have hcur := Tasks.RankTasks.current_congr hsess
  constructor
  · exact h.failed
  · rw [hsess, hcur]
    exact h.nbUsrResults
  · rw [hsess, hcur]
    exact h.resultSize
  · rw [hsess, hfin, hcur]
    exact h.nbResult
  · rw [hfin]
    exact h.finished
  · rw [hsess]
    exact h.usrResults

theorem AccountOk.same (h : AccountOk cfg r t u) (hsame : SameAccount u u') :
    AccountOk cfg r t u' := by
  constructor
  · rw [hsame.failed]
    exact h.failed
  · rw [hsame.nbUsrResults]
    exact h.nbUsrResults
  · rw [hsame.resultSize]
    exact h.resultSize
  · rw [hsame.nbResult, hsame.submitted]
    exact h.nbResult
  · rw [hsame.submitted]
    exact h.finished
  · rw [hsame.submitted, hsame.usrResults]
    exact h.usrResults

/-- Byte `b` of result `i` is among `count` results from `first` on exactly if the result is. -/
theorem byte_mem_iff {size first count i b : ℕ} (hb : b < size) :
    size * first ≤ i * size + b ∧ i * size + b < size * first + count * size ↔
      first ≤ i ∧ i < first + count := by
  constructor
  · rintro ⟨h1, h2⟩
    constructor
    · by_contra hlt
      have hmul : (i + 1) * size ≤ first * size := Nat.mul_le_mul_right _ (by omega)
      rw [Nat.succ_mul] at hmul
      rw [Nat.mul_comm] at h1
      omega
    · by_contra hge
      have hmul : (first + count) * size ≤ i * size := Nat.mul_le_mul_right _ (by omega)
      rw [Nat.add_mul] at hmul
      rw [Nat.mul_comm size first] at h2
      omega
  · rintro ⟨h1, h2⟩
    have hmul : first * size ≤ i * size := Nat.mul_le_mul_right _ h1
    have hmul' : (i + 1) * size ≤ (first + count) * size := Nat.mul_le_mul_right _ h2
    rw [Nat.succ_mul, Nat.add_mul] at hmul'
    rw [Nat.mul_comm size first]
    omega

/-- `submit_results` writes the results of an element to their places. -/
theorem submitResults_byte (hdesc : Describes cfg e)
    (hsize : u.resultSize = cfg.resultSize e.batch.session) {i b : ℕ}
    (hb : b < cfg.resultSize e.batch.session) :
    (submitResults u e).usrResults (i * cfg.resultSize e.batch.session + b) =
      if e.firstTaskId ≤ i ∧ i < e.firstTaskId + e.nbResult then
        cfg.resultByte e.batch.session e.owner i b
      else u.usrResults (i * cfg.resultSize e.batch.session + b) := by
  have hiff := @byte_mem_iff (cfg.resultSize e.batch.session) e.firstTaskId e.nbResult i b hb
  simp only [submitResults, Memory.copy, hsize]
  by_cases hi : e.firstTaskId ≤ i ∧ i < e.firstTaskId + e.nbResult
  · rw [if_pos (hiff.mpr hi), if_pos hi]
    have hbyte := hdesc.results (i - e.firstTaskId) (by omega) b hb
    rw [show e.firstTaskId + (i - e.firstTaskId) = i by omega] at hbyte
    rw [← hbyte]
    congr 1
    have hmul : i * cfg.resultSize e.batch.session =
        (i - e.firstTaskId) * cfg.resultSize e.batch.session +
          e.firstTaskId * cfg.resultSize e.batch.session := by
      rw [← Nat.add_mul, Nat.sub_add_cancel hi.1]
    rw [Nat.mul_comm (cfg.resultSize e.batch.session) e.firstTaskId]
    omega
  · rw [if_neg (fun hc => hi (hiff.mp hc)), if_neg hi]

/-- A rank submits an element of the session that it is in. -/
theorem AccountOk.submit (h : AccountOk cfg r t u) (hfin : t.finished = e.batch.session)
    (hsess : t.session = e.batch.session + 1) (howner : e.owner = r) (hdesc : Describes cfg e)
    (hmax : submittedIn e.batch.session (e :: u.submitted) ≤ cfg.nbTask e.batch.session r) :
    AccountOk cfg r t (submitResults u e) := by
  have hcur := Tasks.RankTasks.current_eq hsess
  have hpos : 0 < t.session := by omega
  have hnb := h.nbResult (by omega)
  have husr := h.nbUsrResults hpos
  have hsize := h.resultSize hpos
  rw [hcur] at hnb husr hsize
  have hnew : u.nbResult + e.nbResult = submittedIn e.batch.session (e :: u.submitted) := by
    rw [submittedIn_cons, if_pos rfl, hnb, Nat.add_comm]
  constructor
  · simp only [submitResults]
    rw [if_pos (by omega)]
    exact h.failed
  · intro _
    rw [hcur]
    exact husr
  · intro _
    rw [hcur]
    exact hsize
  · intro _
    rw [hcur]
    exact hnew
  · intro k hk
    simp only [submitResults]
    rw [submittedIn_cons, if_neg (by omega), Nat.zero_add]
    exact h.finished k hk
  · intro e' he' hsess' i h1 h2 b hb
    have hk : e'.batch.session = e.batch.session := by omega
    rw [hk] at hb ⊢
    rw [submitResults_byte hdesc hsize hb]
    split
    · rw [howner]
    · rename_i hi
      rcases List.mem_cons.mp he' with rfl | he'
      · exact absurd ⟨h1, h2⟩ hi
      · have := h.usrResults e' he' hsess' i h1 h2 b (hk ▸ hb)
        rwa [hk] at this

end Account

/-! ### The ledger -/

section Ledger

/-- A step on tasks that returns no results. -/
theorem LedgerOk.of_tasks (h : LedgerOk cfg s) (ht : TasksOk cfg s.tasks) {a : Tasks.Action n}
    (hs : Tasks.next cfg s.tasks (r, a) = some s'.tasks) (ha : a ≠ .pushed)
    (hpushed : ∀ q, (s'.results.rank q).pushed = (s.results.rank q).pushed) :
    LedgerOk cfg s' := by
  have hstep := Tasks.stepped_of_next hs
  constructor
  · intro q x
    have hold := h.executed q x
    have hnew := hstep.unreturned ht.protocol ha x q
    rw [hpushed]
    omega
  · intro q
    rw [hpushed]
    exact h.describes q
  · intro q e he d
    rw [hpushed] at he
    have hold := h.session q e he d
    rw [hstep.session]
    omega

/-- A step that pushes nothing and concerns no tasks. -/
theorem LedgerOk.of_results (h : LedgerOk cfg s) (htasks : s'.tasks = s.tasks)
    (hpushed : ∀ q, (s'.results.rank q).pushed = (s.results.rank q).pushed) :
    LedgerOk cfg s' := by
  constructor
  · intro q x
    rw [htasks, hpushed]
    exact h.executed q x
  · intro q
    rw [hpushed]
    exact h.describes q
  · intro q
    rw [htasks, hpushed]
    exact h.session q

/-- The element that `push_tmp_results` builds has the results of the tmp segment. -/
theorem covers_newElt {k : ℕ} {dq : Tasks.Dequeue n} {t : Tasks.MetadataTmp n}
    (htmp : Tasks.TmpOk cfg k dq t) {owner : Fin n} (howner : t.ownerResultRank = some owner)
    (u : Results.RankResults n) (data : List UInt8) (x : TaskId n) :
    Covers (Results.newElt u r k (t.lastResultId - t.nbResult) t.nbResult t.resultSize owner data)
      x ↔ t.Contains k x := by
  have hlast := htmp.last
  simp only [Covers, Results.newElt, Tasks.MetadataTmp.Contains, howner, Option.some.injEq,
    show t.lastResultId - t.nbResult + t.nbResult = t.lastResultId by omega]
  rw [eq_comm (a := x.owner)]

/-- `push_tmp_results` takes the results of the tmp segment. -/
theorem LedgerOk.push (h : LedgerOk cfg s) (ht : TasksOk cfg s.tasks) {owner : Fin n}
    {tasks : Tasks.State n} {results : Results.State n} (hnb : (s.tasks r).tmp.nbResult ≠ 0)
    (howner : (s.tasks r).tmp.ownerResultRank = some owner)
    (hs : Results.next net s.results (r, .push (s.tasks r).current
      ((s.tasks r).tmp.lastResultId - (s.tasks r).tmp.nbResult) (s.tasks r).tmp.nbResult
      (s.tasks r).tmp.resultSize owner (tmpData (s.tasks r).tmp)) = some results)
    (hother : ∀ q, q ≠ r → results.rank q = s.results.rank q)
    (hnext : Tasks.next cfg s.tasks (r, .pushed) = some tasks) (control : Fin n → Control) :
    LedgerOk cfg ⟨tasks, results, control⟩ := by
  have htmp := (ht.protocol.rank r).tmpOk hnb
  have hpushed := Results.pushed_of_push hs
  have hstep := Tasks.stepped_of_next hnext
  obtain ⟨site, hpc⟩ : ∃ site, (s.tasks r).pc = .returning site := by
    cases hstep
    exact ⟨_, ‹_›⟩
  have hsess : Tasks.InSession (s.tasks r).pc := by
    rw [hpc]
    constructor <;> rintro ⟨⟩
  constructor
  · intro q x
    have hold := h.executed q x
    by_cases hq : q = r
    · subst hq
      have hexec : (tasks q).executed = (s.tasks q).executed := by
        cases hstep
        rw [Function.update_self]
      have hzero : (tasks q).tmp.copies (tasks q).current x = 0 := by
        apply Tasks.MetadataTmp.copies_eq_zero
        cases hstep
        rw [Function.update_self]
        rfl
      simp only [hexec, hzero, hpushed, cover_cons, covers_newElt htmp howner]
      rw [hold, Tasks.MetadataTmp.copies]
      omega
    · have hsame : (tasks q).executed = (s.tasks q).executed ∧
          (tasks q).tmp = (s.tasks q).tmp ∧ (tasks q).current = (s.tasks q).current := by
        obtain ⟨state, hstate⟩ := hstep.other hq
        rw [hstate]
        exact ⟨rfl, rfl, rfl⟩
      simp only [hsame, hother q hq]
      exact hold
  · intro q e he
    by_cases hq : q = r
    · subst hq
      simp only [hpushed] at he
      rcases List.mem_cons.mp he with rfl | he
      · exact ⟨TmpOk.describes htmp _ q owner howner, Nat.pos_of_ne_zero hnb⟩
      · exact h.describes q e he
    · simp only [hother q hq] at he
      exact h.describes q e he
  · intro q e he d
    have hle : (s.tasks d).session ≤ (tasks d).session := by
      rw [hstep.session]
      omega
    refine lt_of_lt_of_le ?_ hle
    by_cases hq : q = r
    · subst hq
      simp only [hpushed] at he
      rcases List.mem_cons.mp he with rfl | he
      · have h1 := ht.protocol.session q hsess d
        have h2 := (ht.protocol.rank q).session_eq hsess.1
        simp only [Results.newElt, Tasks.RankTasks.current]
        omega
      · exact h.session q e he d
    · simp only [hother q hq] at he
      exact h.session q e he d

end Ledger

/-! ### What a rank sends -/

section Send

variable {u u' : Results.RankResults n} {c c' : Control} {p : Point}

theorem SendOk.setPoint (h : SendOk u c) (hsending : SendingAt u p)
    (hcomplete : p.complete → u.nbUsrResults ≤ u.nbResult) : SendOk u { c with point := p } := by
  constructor
  · exact hsending
  · rintro (hp | hreached)
    · exact hcomplete hp
    · exact h.complete (.inr hreached)

theorem SendOk.congr (h : SendOk u c) (hpoint : c'.point = c.point)
    (hreached : c'.subtreeTermintionReached = c.subtreeTermintionReached) : SendOk u c' := by
  constructor
  · rw [hpoint]
    exact h.sending
  · rw [hpoint, hreached]
    exact h.complete

theorem send_update (h : ∀ q, SendOk (s.results.rank q) (s.control q))
    (hr : SendOk (s.results.rank r) c) (q : Fin n) :
    SendOk (s.results.rank q) (Function.update s.control r c q) := by
  by_cases hq : q = r
  · subst hq
    rwa [Function.update_self]
  · rw [Function.update_of_ne hq]
    exact h q

theorem running_update (h : ∀ q a, (s.control q).point ≠ .aborted a) (hr : ∀ a, c.point ≠ .aborted a)
    (q : Fin n) (a : Assertion) : (Function.update s.control r c q).point ≠ .aborted a := by
  by_cases hq : q = r
  · subst hq
    rw [Function.update_self]
    exact hr a
  · rw [Function.update_of_ne hq]
    exact h q a

end Send

/-! ### The steps -/

section Steps

variable {p : Point} {tasks : Tasks.State n} {results : Results.State n}

/-- A step that changes the control only. -/
theorem SystemOk.of_control (h : SystemOk cfg net s) (htasks : s'.tasks = s.tasks)
    (hresults : s'.results = s.results)
    (hsend : ∀ q, SendOk (s.results.rank q) (s'.control q))
    (hrunning : ∀ q a, (s'.control q).point ≠ .aborted a) : SystemOk cfg net s' := by
  constructor
  · rw [hresults]
    exact h.results
  · rw [hresults]
    exact h.conserved
  · exact h.ledger.of_results htasks fun _ => by rw [hresults]
  · rw [htasks, hresults]
    exact h.account
  · rw [hresults]
    exact hsend
  · exact hrunning

theorem SystemOk.setPoint (h : SystemOk cfg net s) (hsending : SendingAt (s.results.rank r) p)
    (hcomplete : p.complete → (s.results.rank r).nbUsrResults ≤ (s.results.rank r).nbResult)
    (hrunning : ∀ a, p ≠ .aborted a) : SystemOk cfg net (s.setPoint r p) := by
  apply h.of_control (by rfl) (by rfl)
  · exact send_update h.send ((h.send r).setPoint hsending hcomplete)
  · exact running_update h.running hrunning

variable (ht : TasksOk cfg s.tasks) (hd : TerminationOk s) (h : SystemOk cfg net s)

include ht hd h

/-- The assertions at the end of `parallel_work` hold. -/
theorem empty_of_leaving (hpoint : (s.control r).point = .leaving) :
    (s.results.rank r).localTransitingResults = [] ∧ (s.tasks r).seg.nbTask = 0 ∧
      (s.tasks r).tmp.nbResult = 0 ∧
      Results.isEmpty (s.results.segment r) (s.results.rank r) := by
  have hpc := (hd.control r).point
  have hsending := (h.send r).sending
  rw [hpoint] at hpc hsending
  have hall := allSubmitted_of_idle ht hd h hpc
  have hok := (ht.protocol.rank r).pc
  simp only [Tasks.PcOk, show (s.tasks r).pc = .idle from hpc] at hok
  have htransit := (Results.emptied h.results hall r).transit
  have hbuffer := (Results.buffer_empty h.results hall hsending.1).2.1
  refine ⟨htransit, hok.2, hok.1.results, ?_⟩
  simp [Results.isEmpty, htransit, hbuffer]

omit hd in
/-- A rank has no more results than its problem has tasks. -/
theorem nbResult_le (hpc : (s.tasks r).pc ≠ .idle) :
    (s.results.rank r).nbResult ≤ (s.results.rank r).nbUsrResults := by
  have hsess := (ht.protocol.rank r).session_eq hpc
  have hacc := h.account r
  rw [hacc.nbResult (by omega), hacc.nbUsrResults (by omega)]
  exact submittedIn_le h.conserved h.ledger ht _ _

theorem SystemOk.move (hm : Moved s r (s.control r).point p) :
    SystemOk cfg net (s.setPoint r p) := by
  have hsend := h.send r
  have hsending := hsend.sending
  have hcomplete := hsend.complete
  generalize hp₀ : (s.control r).point = p₀ at hm hsending hcomplete
  cases hm with
  | empty | tmpEmpty | stillEmpty | incomplete | self | left =>
    exact h.setPoint hsending (by rintro ⟨⟩) (by rintro _ ⟨⟩)
  | firstFlushed hidle | secondFlushed hidle =>
    exact h.setPoint ⟨hidle, hsending⟩ (by rintro ⟨⟩) (by rintro _ ⟨⟩)
  | pushed hidle htmp => exact h.setPoint ⟨hidle, htmp⟩ (by rintro ⟨⟩) (by rintro _ ⟨⟩)
  | noOwner hnb howner =>
    have htmp := ((ht.protocol.rank r).tmpOk hnb).owner
    rw [howner] at htmp
    cases htmp
  | tooMany hpc hgt =>
    have hle := nbResult_le ht h (r := r) (by rw [hpc]; rintro ⟨⟩)
    exact absurd hle hgt
  | complete hpc heq => exact h.setPoint hsending (fun _ => heq.ge) (by rintro _ ⟨⟩)
  | leftDone | rootDone | noLeft | noRight =>
    exact h.setPoint hsending (fun _ => hcomplete (.inl rfl)) (by rintro _ ⟨⟩)
  | notDone p hp =>
    rcases hp with rfl | rfl | rfl <;>
      exact h.setPoint hsending (by rintro ⟨⟩) (by rintro _ ⟨⟩)
  | askGlobal p hp =>
    rcases hp with rfl | rfl <;> exact h.setPoint hsending (by rintro ⟨⟩) (by rintro _ ⟨⟩)
  | rootReached h0 hreached => exact absurd h0 ((hd.control r).reached hreached).1
  | notEmpty hne => exact absurd (empty_of_leaving ht hd h hp₀) hne

omit hd in
theorem SystemOk.stepTasks {a : Tasks.Action n} (hcall : TasksCall s r (s.control r).point a)
    (hs : Tasks.next cfg s.tasks (r, a) = some tasks) :
    SystemOk cfg net (State.setPoint ⟨tasks, s.results, s.control⟩ r .entry) := by
  obtain ⟨ha, ha', ha''⟩ := hcall.action_ne
  have hstep := Tasks.stepped_of_next hs
  have hsend := h.send r
  constructor
  · exact h.results
  · exact h.conserved
  · exact LedgerOk.of_tasks (s := s) h.ledger ht hs ha'' fun _ => rfl
  · intro q
    apply (h.account q).setTasks
    · have hsess := hstep.session q
      rwa [if_neg fun hc => ha hc.1] at hsess
    · have hfin := hstep.finished q
      rwa [if_neg fun hc => ha' hc.1] at hfin
  · apply send_update h.send
    apply hsend.setPoint _ (by rintro ⟨⟩)
    have hsending := hsend.sending
    revert hsending
    generalize (s.control r).point = p₀ at hcall
    cases hcall with
    | flushed b hidle => exact fun htmp => ⟨hidle, htmp⟩
    | leaveBarrier | work | returned | steal => exact id
  · exact running_update h.running (by rintro _ ⟨⟩)

omit ht hd in
/-- A step on results keeps the account of the rank that makes it, when what it submits is of the
session that the rank is in. -/
theorem account_stepped {a : Results.Action n}
    (hst : Results.Stepped net s.results r a results)
    (hsource : ∀ e, Results.Source s.results r a e →
      (s.tasks r).finished = e.batch.session ∧ (s.tasks r).session = e.batch.session + 1 ∧
        Describes cfg e)
    (hmax : ∀ k, submittedIn k (results.rank r).submitted ≤ cfg.nbTask k r) :
    AccountOk cfg r (s.tasks r) (results.rank r) := by
  have hacc := h.account r
  cases hst.accounted h.results with
  | same hsame => exact hacc.same hsame
  | submit e howner hsrc hsame =>
    obtain ⟨hfin, hsess, hdesc⟩ := hsource e hsrc
    refine (hacc.submit hfin hsess howner hdesc ?_).same hsame
    have hle := hmax e.batch.session
    rwa [hsame.submitted] at hle

/-- What a rank takes from a slot of its segment is of the session that it is in. -/
theorem session_of_slot {e : BufferElt n} (he : Results.At s.results e (.slot, r)) :
    (s.tasks r).finished = e.batch.session ∧ (s.tasks r).session = e.batch.session + 1 ∧
      Describes cfg e := by
  obtain ⟨h1, h2⟩ := session_of_at ht hd h he (by rintro ⟨⟩) r
  obtain ⟨q, hq⟩ := h.conserved.pushed_of_at he
  exact ⟨h1, h2, (h.ledger.describes q e hq).1⟩

theorem SystemOk.stepResults {a : Results.Action n}
    (hcall : ResultsCall s r (s.control r).point a p)
    (hs : Results.next net s.results (r, a) = some results) :
    SystemOk cfg net (State.setPoint ⟨s.tasks, results, s.control⟩ r p) := by
  have hst := h.results.stepped hs
  have hpush : ∀ k id nb size owner data, a ≠ .push k id nb size owner data := by
    revert hcall
    generalize (s.control r).point = p₀
    intro hcall
    cases hcall <;> rintro _ _ _ _ _ _ ⟨⟩
  have hother : ∀ q, q ≠ r → results.rank q = s.results.rank q := fun q hq => hst.rank_of_ne hq
  have hpushed : ∀ q, (results.rank q).pushed = (s.results.rank q).pushed := by
    intro q
    by_cases hq : q = r
    · subst hq
      exact hst.pushed h.results hpush
    · rw [hother q hq]
  have hledger : LedgerOk cfg (State.setPoint ⟨s.tasks, results, s.control⟩ r p) :=
    LedgerOk.of_results (s := s) h.ledger rfl hpushed
  have hconserved := h.conserved.step (h.results.effect hst)
  have hsend := h.send r
  have hle := (hst.accounted h.results).le
  constructor
  · exact h.results.step hst
  · exact hconserved
  · exact hledger
  · intro q
    by_cases hq : q = r
    · subst hq
      apply account_stepped h hst
      · rintro e (hat | ⟨k, id, nb, size, owner, data, ha, -⟩)
        · exact session_of_slot ht hd h hat
        · exact absurd ha (hpush k id nb size owner data)
      · exact fun k => submittedIn_le hconserved hledger ht k q
    · simp only [State.setPoint, State.results_setControl, hother q hq]
      exact h.account q
  · intro q
    simp only [State.setPoint, State.results_setControl, State.control_setControl]
    by_cases hq : q = r
    · subst hq
      rw [Function.update_self]
      have hsending := hsend.sending
      have hcomplete := hsend.complete
      generalize hp₀ : (s.control q).point = p₀ at hcall hsending hcomplete
      constructor
      · simp only
        cases hcall with
        | firstFlush | secondFlush | bufferFlush => exact hst.tmp h.results hpush hsending.2
        | inFlush p hp hpc =>
          rcases hp with rfl | rfl | rfl <;> exact hst.tmp h.results hpush hsending
        | inPush => trivial
        | land p m w | deliver p m =>
          have hsame : results.rank q = s.results.rank q := by
            cases hst
            rfl
          rwa [hsame]
      · rintro (hp | hreached)
        · rw [hle.1]
          refine (hcomplete (.inl ?_)).trans hle.2
          revert hp
          cases hcall with
          | firstFlush | secondFlush | bufferFlush | inPush => rintro ⟨⟩
          | inFlush | land | deliver => exact id
        · rw [hle.1]
          exact (hcomplete (.inr hreached)).trans hle.2
    · rw [Function.update_of_ne hq, hother q hq]
      exact h.send q
  · apply running_update h.running
    have hrun := h.running r
    revert hrun
    generalize (s.control r).point = p₀ at hcall
    cases hcall with
    | firstFlush | secondFlush | bufferFlush =>
      intro _
      rintro _ ⟨⟩
    | inFlush | inPush | land | deliver => exact id

theorem SystemOk.push {owner : Fin n} (hpoint : (s.control r).point = .testingTmp)
    (hnb : (s.tasks r).tmp.nbResult ≠ 0)
    (howner : (s.tasks r).tmp.ownerResultRank = some owner)
    (hs : Results.next net s.results (r, .push (s.tasks r).current
      ((s.tasks r).tmp.lastResultId - (s.tasks r).tmp.nbResult) (s.tasks r).tmp.nbResult
      (s.tasks r).tmp.resultSize owner (tmpData (s.tasks r).tmp)) = some results)
    (hnext : Tasks.next cfg s.tasks (r, .pushed) = some tasks) :
    SystemOk cfg net (State.setPoint ⟨tasks, results, s.control⟩ r .pushing) := by
  have hst := h.results.stepped hs
  have hstep := Tasks.stepped_of_next hnext
  have hother : ∀ q, q ≠ r → results.rank q = s.results.rank q := fun q hq => hst.rank_of_ne hq
  have hledger := h.ledger.push ht hnb howner hs hother hnext
    (State.setPoint ⟨tasks, results, s.control⟩ r .pushing).control
  have hconserved := h.conserved.step (h.results.effect hst)
  have hle := (hst.accounted h.results).le
  have hpc := (hd.control r).point
  rw [hpoint] at hpc
  obtain ⟨site, hpc⟩ := hpc
  have hsess := (ht.protocol.rank r).session_eq (by rw [hpc]; rintro ⟨⟩)
  -- the totals after the step are those of a reachable state of the tasks
  have ht' : TasksOk cfg tasks := by
    constructor
    · exact ht.protocol.next hnext
    · exact ht.conserved.next ht.protocol hnext
    · intro q q'
      rw [hstep.finished, hstep.session]
      exact ht.finished_le q q'
  have haccount : AccountOk cfg r (s.tasks r) (results.rank r) := by
    apply account_stepped h hst
    · rintro e (hat | ⟨k, id, nb, size, owner', data, ha, rfl⟩)
      · exact session_of_slot ht hd h hat
      · cases ha
        have hcur := Tasks.RankTasks.current_eq hsess
        simp only [Results.newElt]
        refine ⟨hcur.symm, by rw [hcur, hsess], ?_⟩
        exact TmpOk.describes ((ht.protocol.rank r).tmpOk hnb) _ r owner howner
    · exact fun k => submittedIn_le hconserved hledger ht' k r
  constructor
  · exact h.results.step hst
  · exact hconserved
  · exact hledger
  · intro q
    simp only [State.setPoint, State.results_setControl, State.tasks_setControl]
    have hsess' := hstep.session q
    have hfin' := hstep.finished q
    rw [if_neg (by rintro ⟨⟨⟩, -⟩)] at hsess' hfin'
    by_cases hq : q = r
    · subst hq
      exact haccount.setTasks hsess' hfin'
    · rw [hother q hq]
      exact (h.account q).setTasks hsess' hfin'
  · intro q
    simp only [State.setPoint, State.results_setControl, State.control_setControl]
    by_cases hq : q = r
    · subst hq
      rw [Function.update_self]
      constructor
      · trivial
      · rintro (hp | hreached)
        · cases hp
        · rw [hle.1]
          exact ((h.send q).complete (.inr hreached)).trans hle.2
    · rw [Function.update_of_ne hq, hother q hq]
      exact h.send q
  · exact running_update h.running (by rintro _ ⟨⟩)

omit ht hd in
theorem SystemOk.addFlag_setPoint (v : Fin n) (add : TerminationStatus → TerminationStatus)
    (hsending : SendingAt (s.results.rank r) p)
    (hcomplete : p.complete → (s.results.rank r).nbUsrResults ≤ (s.results.rank r).nbResult)
    (hrunning : ∀ a, p ≠ .aborted a) : SystemOk cfg net ((s.addFlag v add).setPoint r p) := by
  apply h.of_control (by rfl) (by rfl)
  · intro q
    rw [control_addFlag_setPoint]
    by_cases hq : q = r
    · subst hq
      exact ((h.send q).setPoint hsending hcomplete).congr (by simp) (by rfl)
    · exact (h.send q).congr (by simp [hq]) (by rfl)
  · intro q a
    rw [control_addFlag_setPoint]
    by_cases hq : q = r
    · simpa [hq] using hrunning a
    · simpa [hq] using h.running q a

omit ht hd in
theorem SystemOk.report (hpoint : (s.control r).point = .reporting) :
    SystemOk cfg net ((report s r).setPoint r .selecting) := by
  have hsending := (h.send r).sending
  rw [hpoint] at hsending
  exact h.addFlag_setPoint _ _ hsending (by rintro ⟨⟩) (by rintro _ ⟨⟩)

theorem SystemOk.forward {v : Fin n} (hf : Forwards s r v p) :
    SystemOk cfg net (forward s r (some v) p) := by
  have hsend := h.send r
  have hsending := hsend.sending
  have hcomplete := hsend.complete
  simp only [System.forward, (hf.fresh ht hd).1, if_true]
  rcases hf with ⟨hp, -, rfl⟩ | ⟨hp, -, rfl⟩ <;> rw [hp] at hsending hcomplete
  · exact h.addFlag_setPoint _ _ hsending (fun _ => hcomplete (.inl rfl)) (by rintro _ ⟨⟩)
  · exact h.addFlag_setPoint _ _ hsending (fun _ => hcomplete (.inl rfl)) (by rintro _ ⟨⟩)

omit ht hd in
theorem SystemOk.reach (hpoint : (s.control r).point = .readingRight) :
    SystemOk cfg net (s.setControl r
      { s.control r with subtreeTermintionReached := true, point := .reporting }) := by
  have hsend := h.send r
  have hsending := hsend.sending
  rw [hpoint] at hsending
  apply h.of_control (by rfl) (by rfl)
  · apply send_update h.send
    constructor
    · exact hsending
    · intro _
      apply hsend.complete
      rw [hpoint]
      exact .inl rfl
  · exact running_update h.running (by rintro _ ⟨⟩)

omit ht hd in
theorem SystemOk.pass (hpoint : (s.control r).point = .readingGlobal)
    (hreached : (s.control r).subtreeTermintionReached = true) :
    SystemOk cfg net (s.setControl r
      { s.control r with subtreeTermintionReached := false, point := .forwardingLeft }) := by
  have hsend := h.send r
  have hsending := hsend.sending
  rw [hpoint] at hsending
  apply h.of_control (by rfl) (by rfl)
  · apply send_update h.send
    constructor
    · exact hsending
    · intro _
      exact hsend.complete (.inr hreached)
  · exact running_update h.running (by rintro _ ⟨⟩)

omit hd in
/-- A rank that sets up its segment anew, at the end of a session or at the start of one. -/
theorem SystemOk.renew {a : Tasks.Action n} {m : Results.BufferedSegment n}
    {u : Results.RankResults n} {c : Control} (hall : Results.AllSubmitted s.results)
    (hpc : (s.results.rank r).pc = .idle) (hm : Results.SegmentInit m)
    (hu : Results.Renewed (s.results.rank r) u) (ha : a ≠ .pushed)
    (hs : Tasks.next cfg s.tasks (r, a) = some tasks)
    (haccount : AccountOk cfg r (tasks r) u) (hsend : SendOk u c)
    (hrunning : ∀ a, c.point ≠ .aborted a) :
    SystemOk cfg net (State.setControl
      ⟨tasks, (s.results.setSegment r m).setRank r u, s.control⟩ r c) := by
  have hstep := Tasks.stepped_of_next hs
  have hrank : ∀ q, q ≠ r → ((s.results.setSegment r m).setRank r u).rank q = s.results.rank q :=
    fun q hq => Function.update_of_ne hq _ _
  have hself : ((s.results.setSegment r m).setRank r u).rank r = u := Function.update_self _ _ _
  constructor
  · exact h.results.renew hall hpc hm hu
  · exact h.conserved.step (h.results.effect_renew hall hpc hm hu)
  · apply LedgerOk.of_tasks (s := s) h.ledger ht hs ha
    intro q
    simp only [State.results_setControl]
    by_cases hq : q = r
    · rw [hq, hself, hu.pushed]
    · rw [hrank q hq]
  · intro q
    simp only [State.results_setControl, State.tasks_setControl]
    by_cases hq : q = r
    · rw [hq, hself]
      exact haccount
    · rw [hrank q hq]
      obtain ⟨state, hstate⟩ := hstep.other hq
      exact (h.account q).setTasks (by rw [hstate]; rfl) (by rw [hstate]; rfl)
  · intro q
    simp only [State.results_setControl, State.control_setControl]
    by_cases hq : q = r
    · rw [hq, hself, Function.update_self]
      exact hsend
    · rw [hrank q hq, Function.update_of_ne hq]
      exact h.send q
  · exact running_update h.running hrunning

theorem SystemOk.finish (hpoint : (s.control r).point = .finishing)
    (hs : Tasks.next cfg s.tasks (r, .finish) = some tasks) :
    SystemOk cfg net (State.setControl
      ⟨tasks, (s.results.setSegment r (resetSegment (s.results.segment r))).setRank r
        { s.results.rank r with nbResult := 0 }, s.control⟩
      r { s.control r with terminationStatus := resetFlags r, point := .leaving }) := by
  have hdet : (s.control r).point.detected := by
    rw [hpoint]
    rfl
  have hall := allSubmitted_of_detected ht hd h hdet
  have hsending := (h.send r).sending
  rw [hpoint] at hsending
  obtain ⟨hpc, htmp⟩ := hsending
  have hempty := Results.emptied h.results hall r
  obtain ⟨hreserved, hbuffer, hcount⟩ := Results.buffer_empty h.results hall hpc
  have hacc := h.account r
  have hreached : ¬ (s.control r).subtreeTermintionReached :=
    fun hr => ((hd.control r).reached hr).2.2 hdet
  have hbal : (s.tasks r).pc = .balancing := by
    have := (hd.control r).point
    rwa [hpoint] at this
  have hsess := (ht.protocol.rank r).session_eq (by rw [hbal]; rintro ⟨⟩)
  have hcur := Tasks.RankTasks.current_eq hsess
  have hcomplete := complete_of_nbResult h ht (d := r) (by rw [hbal]; rintro ⟨⟩)
    ((h.send r).complete (by rw [hpoint]; exact .inl rfl))
  rw [hcur] at hcomplete
  apply SystemOk.renew ht h hall hpc _ _ (by rintro ⟨⟩) hs
  · have hstep := Tasks.stepped_of_next hs
    have hsess' := hstep.session r
    have hfin' := hstep.finished r
    rw [if_neg (by rintro ⟨⟨⟩, -⟩)] at hsess'
    rw [if_pos ⟨rfl, rfl⟩] at hfin'
    have hcur' : (tasks r).current = (s.tasks r).current := Tasks.RankTasks.current_congr hsess'
    constructor
    · exact hacc.failed
    · intro hpos
      rw [hcur']
      exact hacc.nbUsrResults (by omega)
    · intro hpos
      rw [hcur']
      exact hacc.resultSize (by omega)
    · intro hlt
      omega
    · intro k hk
      rcases Nat.lt_or_ge k (s.tasks r).finished with hlt | hge
      · exact hacc.finished k hlt
      · rw [show k = (s.tasks r).finished by omega]
        exact hcomplete
    · intro e he hk
      exact hacc.usrResults e he (by omega)
  · constructor
    · exact ⟨hpc, htmp⟩
    · rintro (hp | hr)
      · cases hp
      · exact absurd hr hreached
  · rintro _ ⟨⟩
  · constructor
    · rfl
    · exact hbuffer.symm
    · have := (h.results.segment r).head_lt
      simp only [resetSegment]
      omega
    · exact hcount
    · exact hempty.notifications
    · exact hempty.inbox
    · exact hreserved
  · exact ⟨hpc, htmp, hempty.transit, hacc.failed, rfl, rfl⟩

theorem SystemOk.setProblem (hpoint : (s.control r).point = .entry)
    (hs : Tasks.next cfg s.tasks (r, .setProblem) = some tasks) :
    SystemOk cfg net (State.setControl
      ⟨tasks, (s.results.setSegment r (constructSegment cfg (s.results.segment r))).setRank r
        (constructResults cfg (s.tasks r).session r (s.results.rank r)), s.control⟩
      r { s.control r with terminationStatus := resetFlags r }) := by
  have hstep := Tasks.stepped_of_next hs
  have hidle : (s.tasks r).pc = .idle := by
    cases hstep
    assumption
  have hall := allSubmitted_of_idle ht hd h hidle
  have hsending := (h.send r).sending
  rw [hpoint] at hsending
  obtain ⟨hpc, htmp⟩ := hsending
  have hempty := Results.emptied h.results hall r
  have hacc := h.account r
  have hreached : ¬ (s.control r).subtreeTermintionReached :=
    fun hr => ((hd.control r).reached hr).2.1.1 hidle
  have hold : ∀ e ∈ (s.results.rank r).submitted, e.batch.session < (s.tasks r).session := by
    intro e he
    obtain ⟨q, hq⟩ := h.conserved.pushed_of_at (p := (.submitted, r)) he
    exact h.ledger.session q e hq r
  apply SystemOk.renew ht h hall hpc _ _ (by rintro ⟨⟩) hs
  · have hsess' := hstep.session r
    have hfin' := hstep.finished r
    rw [if_pos ⟨rfl, rfl⟩] at hsess'
    rw [if_neg (by rintro ⟨⟨⟩, -⟩)] at hfin'
    have hcur' := Tasks.RankTasks.current_eq hsess'
    constructor
    · exact hacc.failed
    · intro _
      rw [hcur']
      rfl
    · intro _
      rw [hcur']
      rfl
    · intro _
      rw [hcur']
      exact (submittedIn_eq_zero fun e he => (hold e he).ne).symm
    · intro k hk
      exact hacc.finished k (by omega)
    · intro e he hk
      have := hold e he
      omega
  · constructor
    · rw [hpoint]
      exact ⟨hpc, htmp⟩
    · rintro (hp | hr)
      · rw [hpoint] at hp
        cases hp
      · exact absurd hr hreached
  · rw [hpoint]
    rintro _ ⟨⟩
  · constructor
    · rfl
    · rfl
    · simp only [constructSegment, resetSegment, Config.sharedResultSegmentSize,
        sizeofMetadataResult_eq]
      omega
    · rfl
    · exact hempty.notifications
    · exact hempty.inbox
    · rfl
  · exact ⟨hpc, htmp, rfl, hacc.failed, rfl, rfl⟩

theorem SystemOk.stepped (hs : Stepped cfg net s r s') : SystemOk cfg net s' := by
  cases hs with
  | move p hm => exact SystemOk.move ht hd h hm
  | tasks a tasks hcall hnext => exact SystemOk.stepTasks ht h hcall hnext
  | results a p results hcall hnext => exact SystemOk.stepResults ht hd h hcall hnext
  | push owner tasks results hpoint hnb howner hs hnext =>
    exact SystemOk.push ht hd h hpoint hnb howner hs hnext
  | reach hpoint => exact h.reach hpoint
  | report hpoint => exact h.report hpoint
  | pass hpoint hreached => exact h.pass hpoint hreached
  | forward c p hf => exact SystemOk.forward ht hd h hf
  | finish tasks hpoint hnext => exact SystemOk.finish ht hd h hpoint hnext
  | setProblem tasks hpoint hnext => exact SystemOk.setProblem ht hd h hpoint hnext

end Steps

theorem SystemOk.init (hi : (system cfg net).init s) : SystemOk cfg net s := by
  have hconserved := Results.Conserved.init hi.2.1
  obtain ⟨htasks, hresults, hcontrol⟩ := hi
  have hpushed : ∀ q, (s.results.rank q).pushed = [] := fun q => (hresults.2 q).pushed
  constructor
  · exact .init hresults
  · exact hconserved
  · constructor
    · intro q x
      have hq := htasks q
      rw [hq.executed, hpushed, Tasks.MetadataTmp.copies_eq_zero hq.nbResult]
      rfl
    · intro q
      rw [hpushed]
      rintro _ ⟨⟩
    · intro q
      rw [hpushed]
      rintro _ ⟨⟩
  · intro q
    have ht := htasks q
    have hr := hresults.2 q
    have hzero : ¬ 0 < (s.tasks q).session := by
      rw [ht.session]
      exact lt_irrefl _
    constructor
    · exact hr.failed
    · exact fun hpos => absurd hpos hzero
    · exact fun hpos => absurd hpos hzero
    · intro hlt
      rw [ht.session] at hlt
      cases hlt
    · intro k hk
      rw [ht.finished] at hk
      cases hk
    · rw [hr.submitted]
      rintro _ ⟨⟩
  · intro q
    have hr := hresults.2 q
    have hc := hcontrol q
    constructor
    · rw [hc.point]
      exact ⟨hr.pc, hr.tmp⟩
    · rintro (hp | hreached)
      · rw [hc.point] at hp
        cases hp
      · rw [hc.subtreeTermintionReached] at hreached
        cases hreached
  · intro q
    rw [(hcontrol q).point]
    rintro _ ⟨⟩

/-- Every step keeps what holds of tasks, results and control together. -/
theorem system_invariant (cfg : Config n) (net : Results.Network n) :
    (system cfg net).Invariant (SystemOk cfg net) := by
  apply ((tasksOk_invariant cfg net).and (termination_invariant cfg net)).of_step
  · exact fun _ => SystemOk.init
  · exact fun _ _ _ hinv h hs => SystemOk.stepped hinv.1 hinv.2 h (stepped_of_next hs)

end Titus.System
