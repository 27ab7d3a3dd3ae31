import Titus.Results.Settling

/-! What one rank does to the end while the others rest: its flush leaves its own segment empty, and
its push of the tmp segment succeeds there. -/

namespace Titus.Results

variable {n : ℕ} {net : Network n} {r q : Fin n} {s s' : State n} {a : Action n}
  {tmp : Fin n → Option (BufferElt n)} {e : BufferElt n}

/-! ### One rank alone -/

/-- All ranks but `r` rest, and have the content `tmp` in their tmp segments. -/
def OthersRest (r : Fin n) (tmp : Fin n → Option (BufferElt n)) (s : State n) : Prop :=
  ∀ q, q ≠ r → (s.rank q).pc = .idle ∧ (s.rank q).tmp = tmp q

/-- While the others rest, the ongoing steps are those of rank `r`, and arrivals. -/
theorem OthersRest.cases (h : OthersRest r tmp s) (ha : Ongoing s q a) :
    a.arrival ∨ a = .advance ∧ q = r := by
  cases a with
  | push | flush | pushTransit => cases ha
  | land | deliver => exact .inl rfl
  | advance =>
    refine .inr ⟨rfl, ?_⟩
    by_contra hne
    exact ha (h q hne).1

theorem rank_of_arrival (hs : Stepped net s q a s') (ha : a.arrival) : s'.rank = s.rank := by
  cases hs with
  | land | deliver => rfl
  | _ => cases ha

theorem head_of_arrival (hs : Stepped net s q a s') (ha : a.arrival) (v : Fin n) :
    (s'.segment v).bufferHead = (s.segment v).bufferHead := by
  have hupdate : ∀ m : BufferedSegment n, m.bufferHead = (s.segment q).bufferHead →
      (Function.update s.segment q m v).bufferHead = (s.segment v).bufferHead := by
    intro m hm
    by_cases hv : v = q
    · subst hv
      rw [Function.update_self, hm]
    · rw [Function.update_of_ne hv]
  cases hs with
  | land | deliver => exact hupdate _ rfl
  | _ => cases ha

theorem OthersRest.step (h : OthersRest r tmp s) (ha : Ongoing s q a)
    (hs : Stepped net s q a s') : OthersRest r tmp s' := by
  intro w hw
  rcases h.cases ha with harr | ⟨-, rfl⟩
  · rw [rank_of_arrival hs harr]
    exact h w hw
  · rw [hs.rank_of_ne hw]
    exact h w hw

/-- Rank `r` goes on alone.  It has pushed the content of its tmp segment, or its next flush empties
its segment. -/
structure Alone (r : Fin n) (tmp : Fin n → Option (BufferElt n)) (s : State n) : Prop where
  others : OthersRest r tmp s
  site : ∀ p, (s.rank r).pc.push = some p → p.site = .tmp ∨ p.site = .group
  content : (s.rank r).tmp = none ∨ (s.rank r).tmp = tmp r
  vacated : (s.rank r).tmp = tmp r → (s.rank r).pc = .idle ∨ (s.rank r).pc = .unlocking →
    (s.segment r).bufferHead = (s.segment r).bufferTail

/-- A step of the rank to a point at which its flush has not ended. -/
theorem Alone.goOn (h : Alone r tmp s) (hothers : OthersRest r tmp s')
    (htmp : (s'.rank r).tmp = (s.rank r).tmp)
    (hsite : ∀ p, (s'.rank r).pc.push = some p → p.site = .tmp ∨ p.site = .group)
    (hpc : (s'.rank r).pc ≠ .idle ∧ (s'.rank r).pc ≠ .unlocking) : Alone r tmp s' := by
  refine ⟨hothers, hsite, ?_, ?_⟩
  · rw [htmp]
    exact h.content
  · rintro - (hp | hp)
    · exact absurd hp hpc.1
    · exact absurd hp hpc.2

theorem Alone.giveUp (h : Alone r tmp s) (hok : ResultsOk net s) {p : Push n}
    (hpush : (s.rank r).pc.push = some p) (selected : List Bool)
    (hothers : OthersRest r tmp s')
    (hs : s'.rank r = Results.giveUp (s.segment r) (s.rank r) p selected) : Alone r tmp s' := by
  have hsite := h.site p hpush
  rcases (hok.rank r).giveUp p selected with ⟨-, heq⟩ | ⟨⟨i, hp⟩, -⟩ | ⟨-, heq⟩
  · rw [heq] at hs
    apply h.goOn hothers <;> rw [hs]
    · rintro _ ⟨⟩
    · exact ⟨by rintro ⟨⟩, by rintro ⟨⟩⟩
  · rw [hp] at hsite
    rcases hsite with ⟨⟨⟩⟩ | ⟨⟨⟩⟩
  · rw [heq] at hs
    apply h.goOn hothers <;> rw [hs]
    · rfl
    · rintro _ ⟨⟩
    · exact ⟨by rintro ⟨⟩, by rintro ⟨⟩⟩

theorem Alone.advance (h : Alone r tmp s) (hok : ResultsOk net s)
    (hs : Stepped net s r .advance s') (hpc : (s.rank r).pc ≠ .idle) : Alone r tmp s' := by
  have hothers := h.others.step (a := .advance) hpc hs
  have hself : ∀ v m t, ((s.setSegment v m).setRank r t).rank r = t := by
    intro v m t
    rw [State.rank_setRank, Function.update_self]
  have hrank : ∀ t, (s.setRank r t).rank r = t := fun t => Function.update_self _ _ _
  cases hs with
  | startTmp hidle => exact absurd hidle hpc
  | spin => exact h
  | empty hp htail =>
    refine ⟨hothers, ?_, ?_, ?_⟩
    · rw [hrank]
      rintro _ ⟨⟩
    · rw [hrank]
      exact h.content
    · intro _ _
      exact htail.symm
  | unlockOwn hp =>
    refine ⟨hothers, ?_, ?_, ?_⟩
    · rw [hself]
      rintro _ ⟨⟩
    · rw [hself]
      exact h.content
    · rw [hself]
      intro htmp _
      simp only [State.segment_setRank, State.segment_setSegment, Function.update_self]
      exact h.vacated htmp (.inr hp)
  | purge hp =>
    refine ⟨hothers, ?_, ?_, ?_⟩
    · rw [hself]
      rintro _ ⟨⟩
    · rw [hself]
      exact h.content
    · intro _ _
      simp only [State.segment_setRank, State.segment_setSegment, Function.update_self]
      rfl
  | lockFailed p hp =>
    exact h.giveUp hok (by rw [hp]; rfl) [] hothers (hrank _)
  | releaseEmpty p res hp =>
    exact h.giveUp hok (by rw [hp]; rfl) res.selected hothers (hself _ _ _)
  | post p res hp =>
    have hsite := h.site p (by rw [hp]; rfl)
    have hpush := (hok.rank r).push p (by rw [hp]; rfl)
    rcases (hok.rank r).settle p res with ⟨hp', heq⟩ | ⟨i, hp', -⟩ | ⟨-, heq⟩
    · -- the content of the tmp segment has been pushed
      unfold PushOk at hpush
      rw [hp'] at hpush
      obtain ⟨e, he⟩ := Option.isSome_iff_exists.mp hpush.1
      refine ⟨hothers, ?_, ?_, ?_⟩
      · rw [hself, heq]
        rintro _ ⟨⟩
      · rw [hself, heq]
        exact .inl rfl
      · rw [hself, heq]
        intro htmp
        have htmp' := h.content
        rw [he, ← htmp] at htmp'
        rcases htmp' with ⟨⟨⟩⟩ | ⟨⟨⟩⟩
    · rw [hp'] at hsite
      rcases hsite with ⟨⟨⟩⟩ | ⟨⟨⟩⟩
    · apply h.goOn hothers <;> rw [hself, heq]
      · rfl
      · rintro _ ⟨⟩
      · exact ⟨by rintro ⟨⟩, by rintro ⟨⟩⟩
  | group c k hp =>
    apply h.goOn hothers <;> rw [hrank]
    · rintro _ ⟨⟩
      exact .inr rfl
    · exact ⟨by rintro ⟨⟩, by rintro ⟨⟩⟩
  | select p res hp =>
    have hsite := h.site p (by rw [hp]; rfl)
    apply h.goOn hothers <;> rw [hrank]
    · split <;> rintro _ ⟨⟩ <;> exact hsite
    · split <;> exact ⟨by rintro ⟨⟩, by rintro ⟨⟩⟩
  | occupied | bounded | waited | collect | grouped =>
    apply h.goOn hothers <;> rw [hrank]
    · rintro _ ⟨⟩
    · exact ⟨by rintro ⟨⟩, by rintro ⟨⟩⟩
  | submit c off x e hp =>
    apply h.goOn hothers <;> rw [hrank]
    · rfl
    · simp only [submitResults, hp]
      rintro _ ⟨⟩
    · simp only [submitResults, hp]
      exact ⟨by rintro ⟨⟩, by rintro ⟨⟩⟩
  | lockOwn | consume =>
    apply h.goOn hothers <;> rw [hself]
    · rintro _ ⟨⟩
    · exact ⟨by rintro ⟨⟩, by rintro ⟨⟩⟩
  | lockTaken p hp | addHead p res hp | addCount p res hp | release p res hp =>
    have hsite := h.site p (by rw [hp]; rfl)
    apply h.goOn hothers <;> rw [hself]
    · rintro _ ⟨⟩
      exact hsite
    · exact ⟨by rintro ⟨⟩, by rintro ⟨⟩⟩

/-- The ongoing steps keep it. -/
theorem Alone.step (h : Alone r tmp s) (hok : ResultsOk net s) (ha : Ongoing s q a)
    (hs : Stepped net s q a s') : Alone r tmp s' := by
  rcases h.others.cases ha with harr | ⟨rfl, rfl⟩
  · have hrank := rank_of_arrival hs harr
    refine ⟨h.others.step ha hs, ?_, ?_, ?_⟩
    · rw [hrank]
      exact h.site
    · rw [hrank]
      exact h.content
    · rw [hrank, (hs.bounds r).2, head_of_arrival hs harr]
      exact h.vacated
  · exact h.advance hok hs ha

/-! ### The push of a tmp segment -/

/-- No rank holds a lock at rest. -/
theorem Quiet.available (hq : Quiet s) (h : LocksOk s) (v : Fin n) :
    (s.segment v).state = .segmentAvailable := by
  cases hst : (s.segment v).state with
  | segmentAvailable => rfl
  | copyInProgress =>
    have hflush := (h.flush v).mp hst
    rw [hq.idle] at hflush
    cases hflush
  | rank q =>
    have hlocked := (h.lock v q).mp hst
    rw [hq.idle] at hlocked
    cases hlocked

/-- Rank `r` before an attempt of `push_tmp_results`. -/
def attempt (s : State n) (r : Fin n) : State n :=
  s.setRank r { s.rank r with pc := .reserving ⟨.tmp, r⟩ }

@[simp] theorem rank_attempt (s : State n) (r : Fin n) :
    (attempt s r).rank r = { s.rank r with pc := .reserving ⟨.tmp, r⟩ } :=
  Function.update_self _ _ _

theorem OthersRest.attempt (h : OthersRest r tmp s) : OthersRest r tmp (attempt s r) := by
  intro q hne
  rw [Results.attempt, State.rank_setRank, Function.update_of_ne hne]
  exact h q hne

theorem Quiet.othersRest (hq : Quiet s) (r : Fin n) : OthersRest r (fun q => (s.rank q).tmp) s :=
  fun q _ => ⟨hq.idle q, rfl⟩

theorem Quiet.startTmp (hq : Quiet s) (hfailed : (s.rank r).failed = none)
    (htmp : (s.rank r).tmp = some e) :
    next net s (r, .advance) = some (attempt s r) := by
  simp only [attempt, next, hfailed, if_true, hq.idle, localNext, htmp, Option.isSome_some,
    Option.map_some, State.setSegment_self]

/-- The attempt locks the segment, as nobody else does. -/
theorem exists_reading (h : OthersRest r tmp s) (hfailed : (s.rank r).failed = none)
    (hpc : (s.rank r).pc = .reserving ⟨.tmp, r⟩) (htmp : (s.rank r).tmp = tmp r)
    (hst : (s.segment r).state = .segmentAvailable) :
    ∃ u, next net s (r, .advance) = some u ∧ Alone r tmp u := by
  rw [next_push hfailed (by rw [hpc]; rfl)]
  simp only [pushNext, hpc, compareAndSwapStatus, hst, if_true]
  refine ⟨_, rfl, ?_, ?_, ?_, ?_⟩
  · intro q hq
    rw [State.rank_setRank, Function.update_of_ne hq]
    exact h q hq
  · rw [State.rank_setRank, Function.update_self]
    rintro _ ⟨⟩
    exact .inl rfl
  · rw [State.rank_setRank, Function.update_self]
    exact .inr htmp
  · rw [State.rank_setRank, Function.update_self]
    rintro - (⟨⟨⟩⟩ | ⟨⟨⟩⟩)

/-- Rank `r` has pushed the content of its tmp segment, or is about to. -/
def Delivering (r : Fin n) (tmp : Fin n → Option (BufferElt n)) (s : State n) : Prop :=
  OthersRest r tmp s ∧ ((s.rank r).tmp = none ∨ ∃ k, Allocating r s (k + 1))

theorem Delivering.step (h : Delivering r tmp s) (hok : RunOk net s) (ha : Ongoing s q a)
    (hs : next net s (q, a) = some s') : Delivering r tmp s' := by
  have hstep := hok.results.stepped hs
  refine ⟨h.1.step ha hstep, ?_⟩
  rcases h.2 with hnone | ⟨k, hk⟩
  · left
    rcases h.1.cases ha with harr | ⟨rfl, rfl⟩
    · rwa [rank_of_arrival hstep harr]
    · exact hstep.tmp hok.results (by rintro _ _ _ _ _ _ ⟨⟩) hnone
  · rcases h.1.cases ha with harr | ⟨rfl, rfl⟩
    · exact .inr ⟨k, hk.other hok.results hstep (.inr harr)⟩
    · obtain ⟨u, hu, hk'⟩ := hk.advance hok.results (hok.running q)
      rw [hs] at hu
      cases hu
      cases k with
      | zero => exact .inl hk'.2
      | succ k => exact .inr ⟨k, hk'⟩

/-- At rest it has been pushed. -/
theorem Delivering.tmp_eq_none (h : Delivering r tmp s) (hq : Quiet s) :
    (s.rank r).tmp = none := by
  rcases h.2 with hnone | ⟨k, hk⟩
  · exact hnone
  · have hpush := hk.push
    rw [hq.idle] at hpush
    cases hpush

/-- An attempt that finds room. -/
theorem exists_delivering (h : OthersRest r tmp s) (hfailed : (s.rank r).failed = none)
    (hpc : (s.rank r).pc = .reserving ⟨.tmp, r⟩) (htmp : (s.rank r).tmp = some e)
    (hst : (s.segment r).state = .segmentAvailable) (hfits : fits (s.segment r) e) :
    ∃ u, next net s (r, .advance) = some u ∧ Delivering r tmp u := by
  obtain ⟨u, hu, hk⟩ : ∃ u, next net s (r, .advance) = some u ∧ Allocating r u 5 :=
    allocating_of_unlocked hfailed hpc htmp hst hfits
  refine ⟨u, hu, ?_, .inr ⟨4, hk⟩⟩
  rw [next_push hfailed (by rw [hpc]; rfl)] at hu
  simp only [pushNext, hpc] at hu
  cases hu
  intro q hq
  rw [State.rank_setRank, Function.update_of_ne hq]
  exact h q hq

/-- The ranks that have something to push. -/
def pendingTmp (s : State n) : Finset (Fin n) :=
  Finset.univ.filter fun q => (s.rank q).tmp ≠ none

theorem card_pendingTmp_lt (h : OthersRest r (fun q => (s.rank q).tmp) s')
    (hr : (s.rank r).tmp ≠ none) (hr' : (s'.rank r).tmp = none) :
    (pendingTmp s').card < (pendingTmp s).card := by
  apply Finset.card_lt_card
  refine Finset.ssubset_iff_of_subset ?_ |>.mpr ⟨r, ?_, ?_⟩
  · intro q hq
    simp only [pendingTmp, Finset.mem_filter, Finset.mem_univ, true_and] at hq ⊢
    by_cases hqr : q = r
    · rwa [hqr]
    · have hsame : (s'.rank q).tmp = (s.rank q).tmp := (h q hqr).2
      rwa [← hsame]
  · simpa [pendingTmp] using hr
  · simpa [pendingTmp] using hr'

/-! ### The flush of a rank alone -/

/-- Rank `r` at the start of a flush. -/
def flushing (s : State n) (r : Fin n) : State n :=
  s.setRank r { s.rank r with pc := .checking }

@[simp] theorem rank_flushing (s : State n) (r : Fin n) :
    (flushing s r).rank r = { s.rank r with pc := .checking } := Function.update_self _ _ _

theorem Quiet.othersRest_flushing (hq : Quiet s) (htmp : ∀ q, (s.rank q).tmp = none) (r : Fin n) :
    OthersRest r (fun _ => none) (flushing s r) := by
  intro q hne
  rw [flushing, State.rank_setRank, Function.update_of_ne hne]
  exact ⟨hq.idle q, htmp q⟩

/-- A flush starts with every element where it was. -/
theorem at_flushing (hidle : (s.rank r).pc = .idle) {p : Place n} :
    At (flushing s r) e p ↔ At s e p := by
  obtain ⟨k, q⟩ := p
  unfold At
  by_cases hq : q = r
  · subst hq
    rw [rank_flushing, flushing, State.segment_setRank, elements_setPc]
    · rw [hidle]
      rfl
    · rw [hidle]
      rfl
    · rfl
    · exact .inl rfl
  · rw [flushing, State.segment_setRank, State.rank_setRank, Function.update_of_ne hq]

theorem Quiet.alone_flushing (hq : Quiet s) (htmp : ∀ q, (s.rank q).tmp = none) (r : Fin n) :
    Alone r (fun _ => none) (flushing s r) := by
  constructor
  · exact hq.othersRest_flushing htmp r
  · rw [rank_flushing]
    rintro _ ⟨⟩
  · rw [rank_flushing]
    exact .inl (htmp r)
  · rw [rank_flushing]
    rintro - (⟨⟨⟩⟩ | ⟨⟨⟩⟩)

/-- The elements on a segment that no flush has collected are in the reserved slots. -/
theorem elements_slot_of_idle {m : BufferedSegment n} {t : RankResults n} (hidle : t.pc = .idle) :
    elements m t .slot = m.reserved.map Prod.snd := by
  simp only [elements, hidle, ResultPc.collected, Bool.false_eq_true, if_false]

theorem ResultsOk.reserved_eq_nil (h : ResultsOk net s)
    (hhead : (s.segment r).bufferHead = (s.segment r).bufferTail) :
    (s.segment r).reserved = [] := by
  have htiles := (h.segment r).tiles
  by_contra hne
  obtain ⟨w, hw⟩ := List.exists_mem_of_ne_nil _ hne
  have hrange := htiles.mem_range hw
  have hpos := bufferEntrySize_pos w.2
  omega

theorem ResultsOk.head_eq_tail (h : ResultsOk net s) (hnil : (s.segment r).reserved = []) :
    (s.segment r).bufferHead = (s.segment r).bufferTail := by
  have htiles := (h.segment r).tiles
  rw [hnil] at htiles
  exact htiles.symm

/-- The flush leaves nothing on the segment. -/
theorem Alone.not_at (h : Alone r tmp s) (hok : ResultsOk net s) (hq : Quiet s)
    (htmp : (s.rank r).tmp = tmp r) : ¬ At s e (.slot, r) := by
  have hnil := hok.reserved_eq_nil (h.vacated htmp (.inl (hq.idle r)))
  rw [At, elements_slot_of_idle (hq.idle r), hnil]
  exact List.not_mem_nil

end Titus.Results
