import Titus.Results.Conservation

/-! The results between two sessions: when every element has been submitted nothing is on its way
anywhere, so that a rank may set up its segment anew.  And what a step changes of the results that a
rank has submitted. -/

namespace Titus.Results

variable {n : ℕ} {net : Network n} {r v q : Fin n} {s s' : State n} {a : Action n}
  {m : BufferedSegment n} {t : RankResults n}

/-! ### When every element has been submitted -/

/-- Every element has been given to `submit_results`. -/
def AllSubmitted (s : State n) : Prop := ∀ e p, At s e p → p.1 = .submitted

/-- A rank that has nothing to send, with the segment `m` that nothing is sent to. -/
structure Emptied (m : BufferedSegment n) (t : RankResults n) : Prop where
  push : t.pc.push = none
  tmp : t.tmp = none
  transit : t.localTransitingResults = []
  inbox : m.inbox = []
  notifications : ∀ i, m.notifications i = 0
  /-- A flush that has taken the elements off the segment has not purged it yet. -/
  reserved : t.pc.collected = false → m.reserved = []

section AllSubmitted

variable (h : ResultsOk net s) (hall : AllSubmitted s)

include h hall

theorem not_pending (v : Fin n) (b : Message n) :
    ¬ Announcement.Pending (s.segment v).inbox (carriedTo s v) b := by
  intro hb
  have hseg := h.segment v
  have hcollected : (s.rank v).pc.collected = false := by
    apply Bool.eq_false_of_not_eq_true
    intro hc
    exact hseg.not_drained hb (drained_of_collected hc)
  have hpos := hseg.delivery.length_pos b hb
  have hinside := hseg.delivery.inside b hb
  -- the first slot of the block holds an element that is not submitted
  have hlt : b.first < (s.segment v).reserved.length := by omega
  have hat : At s ((s.segment v).reserved[b.first]).2 (.slot, v) := by
    simp only [At, elements, hcollected, Bool.false_eq_true, if_false]
    exact List.mem_map_of_mem (List.getElem_mem hlt)
  cases hall _ _ hat

theorem carriedTo_eq_none (v q : Fin n) : carriedTo s v q = none := by
  cases hc : carriedTo s v q with
  | none => rfl
  | some b => exact absurd (.inr ⟨q, hc⟩) (not_pending h hall v b)

theorem carrying_eq_none (q : Fin n) : (s.rank q).pc.carrying = none := by
  have hno : ∀ p : Push n, ∀ res : Reservation n, res.elts ≠ [] →
      (s.rank q).pc = .addingCount p res ∨ (s.rank q).pc = .releasing p res ∨
        (s.rank q).pc = .posting p res → False := by
    intro p res helts hpc
    have hcarried := carriedTo_eq_none h hall p.target q
    rcases hpc with hpc | hpc | hpc <;>
      simp [carriedTo, hpc, ResultPc.carriedTo, helts] at hcarried
  cases hpc : (s.rank q).pc with
  | addingCount p res =>
    by_contra hne
    exact hno p res (fun h0 => hne (if_pos h0)) (.inl hpc)
  | releasing p res =>
    by_contra hne
    exact hno p res (fun h0 => hne (if_pos h0)) (.inr (.inl hpc))
  | posting p res =>
    by_contra hne
    exact hno p res (fun h0 => hne (if_pos h0)) (.inr (.inr hpc))
  | _ => rfl

theorem tmp_eq_none (q : Fin n) : (s.rank q).tmp = none := by
  cases htmp : (s.rank q).tmp with
  | none => rfl
  | some e =>
    have hat : At s e (.tmp, q) := by
      rw [At, elements_tmp_of_carrying (carrying_eq_none h hall q), htmp]
      exact List.mem_singleton.mpr rfl
    cases hall _ _ hat

theorem transit_eq_nil (q : Fin n) : (s.rank q).localTransitingResults = [] := by
  apply List.eq_nil_iff_forall_not_mem.mpr
  intro x hx
  obtain ⟨e, he⟩ := (h.rank q).entries x hx
  rcases (h.rank q).mem_elements (carrying_eq_none h hall q) hx he.elt with hat | hat
  · cases hall e (.slot, q) hat
  · cases hall e (.transiting, q) hat

theorem push_eq_none (q : Fin n) : (s.rank q).pc.push = none := by
  cases hpush : (s.rank q).pc.push with
  | none => rfl
  | some p =>
    have hp := (h.rank q).push p hpush
    have htransit := transit_eq_nil h hall q
    unfold PushOk at hp
    split at hp
    · rw [tmp_eq_none h hall q] at hp
      cases hp.1
    · obtain ⟨x, hx, -⟩ := hp
      rw [htransit] at hx
      cases hx
    · obtain ⟨-, x, hx, -⟩ := hp
      rw [htransit] at hx
      cases hx

/-- When every element has been submitted nothing is on its way. -/
theorem emptied (q : Fin n) : Emptied (s.segment q) (s.rank q) := by
  have hseg := h.segment q
  have hreserved : (s.rank q).pc.collected = false → (s.segment q).reserved = [] := by
    intro hc
    apply List.eq_nil_iff_forall_not_mem.mpr
    intro w hw
    have hat : At s w.2 (.slot, q) := by
      simp only [At, elements, hc, Bool.false_eq_true, if_false]
      exact List.mem_map_of_mem hw
    cases hall _ _ hat
  constructor
  · exact push_eq_none h hall q
  · exact tmp_eq_none h hall q
  · exact transit_eq_nil h hall q
  · apply List.eq_nil_iff_forall_not_mem.mpr
    intro b hb
    exact not_pending h hall q b (.inl hb)
  · intro i
    cases hc : (s.rank q).pc.collected with
    | true => exact (hseg.drained (drained_of_collected hc)).2 i
    | false =>
      by_contra hi
      have hinside := hseg.delivery.announced_inside i hi
      rw [hreserved hc, List.length_nil] at hinside
      omega
  · exact hreserved

/-- A segment that nothing is on and that its rank does not flush is available. -/
theorem state_eq_available (hpc : (s.rank r).pc = .idle) :
    (s.segment r).state = .segmentAvailable := by
  cases hst : (s.segment r).state with
  | segmentAvailable => rfl
  | copyInProgress =>
    have := (h.locks.flush r).mp hst
    rw [hpc] at this
    cases this
  | rank q =>
    have hlocked := (h.locks.lock r q).mp hst
    have hpush := push_eq_none h hall q
    revert hlocked hpush
    cases (s.rank q).pc <;> simp [ResultPc.locked, ResultPc.push]

/-- The buffer of an idle rank is empty. -/
theorem buffer_empty (hpc : (s.rank r).pc = .idle) :
    (s.segment r).reserved = [] ∧ (s.segment r).bufferTail = (s.segment r).bufferHead ∧
      (s.segment r).bufferEltCount = 0 := by
  have hreserved := (emptied h hall r).reserved (by rw [hpc]; rfl)
  have hseg := h.segment r
  have htiles := hseg.tiles
  have hcount := hseg.count
  rw [hreserved] at htiles hcount
  refine ⟨hreserved, htiles.eq_of_nil, ?_⟩
  rw [List.length_nil] at hcount
  omega

/-! ### A new segment -/

/-- A rank with a new segment and nothing to send, whose pushed and submitted elements are those of
`t`. -/
structure Renewed (t t' : RankResults n) : Prop where
  pc : t'.pc = .idle
  tmp : t'.tmp = none
  transit : t'.localTransitingResults = []
  failed : t'.failed = none
  pushed : t'.pushed = t.pushed
  submitted : t'.submitted = t.submitted

/-- Between two sessions a rank may set up its segment anew. -/
theorem ResultsOk.renew (hpc : (s.rank r).pc = .idle) (hm : SegmentInit m)
    (ht : Renewed (s.rank r) t) : ResultsOk net ((s.setSegment r m).setRank r t) := by
  have hst := state_eq_available h hall hpc
  have hfree : ∀ q, (s.segment r).state ≠ .rank q := by
    rw [hst]
    rintro _ ⟨⟩
  have hnot : ¬ t.pc.flushing := by
    rw [ht.pc]
    rintro ⟨⟩
  constructor
  · apply h.locks.keep
    · rw [hm.state, hst]
    · rw [ht.pc, hpc]
    · rw [ht.pc, hpc]
  · apply h.ranks_own
    exact rankOk_of_idle ht.pc ht.transit ht.tmp ht.failed
  · apply h.segments_own
    · rw [hpc]
      rfl
    · intro w
      rw [ht.pc, hpc]
    · rw [hm.state]
      rintro _ ⟨⟩
    · exact hm.ok hnot (carriedTo_eq_none h hall r)
  · apply h.reservation_update
    · exact .inr fun q _ => hfree q
    · rw [ht.pc]
      trivial

/-- The new segment has no elements, as the old one had none. -/
theorem ResultsOk.effect_renew (hpc : (s.rank r).pc = .idle) (hm : SegmentInit m)
    (ht : Renewed (s.rank r) t) : Effect net r s ((s.setSegment r m).setRank r t) := by
  have hreserved := (buffer_empty h hall hpc).1
  apply Effect.still ht.pushed
  · intro k
    rw [Function.update_self]
    apply elements_congr
    · rw [elements_tmp_of_carrying (by rw [ht.pc]; rfl),
        elements_tmp_of_carrying (by rw [hpc]; rfl), ht.tmp, tmp_eq_none h hall r]
    · exact ht.submitted
    · rw [ht.pc, hpc]
    · rw [remaining_of_carrying (by rw [ht.pc]; rfl), remaining_of_carrying (by rw [hpc]; rfl),
        ht.transit, transit_eq_nil h hall r]
    · rw [hm.reserved, hreserved]
    · right
      rw [hpc]
      rfl
  · intro hne
    exact absurd rfl hne

end AllSubmitted

/-! ### What a step changes of the results submitted -/

/-- What `submit_results` changes is the same. -/
structure SameAccount (t t' : RankResults n) : Prop where
  nbResult : t'.nbResult = t.nbResult
  nbUsrResults : t'.nbUsrResults = t.nbUsrResults
  resultSize : t'.resultSize = t.resultSize
  usrResults : t'.usrResults = t.usrResults
  submitted : t'.submitted = t.submitted
  failed : t'.failed = t.failed

theorem SameAccount.refl (t : RankResults n) : SameAccount t t := ⟨rfl, rfl, rfl, rfl, rfl, rfl⟩

/-- Where the rank takes an element from that it submits: a slot of its segment, or the results that
it pushes. -/
def Source (s : State n) (r : Fin n) (a : Action n) (e : BufferElt n) : Prop :=
  At s e (.slot, r) ∨ ∃ k id nb size owner data, a = .push k id nb size owner data ∧
    e = newElt (s.rank r) r k id nb size owner data

/-- A step of rank `r` to `t` submits at most one element. -/
inductive Accounted (s : State n) (r : Fin n) (a : Action n) (t : RankResults n) : Prop
  | same (h : SameAccount (s.rank r) t)
  | submit (e : BufferElt n) (howner : e.owner = r) (hsource : Source s r a e)
    (h : SameAccount (submitResults (s.rank r) e) t)

/-- A rank never has fewer results than before. -/
theorem Accounted.le (h : Accounted s r a t) : t.nbUsrResults = (s.rank r).nbUsrResults ∧
    (s.rank r).nbResult ≤ t.nbResult := by
  cases h with
  | same h => exact ⟨h.nbUsrResults, h.nbResult.ge⟩
  | submit e howner hsource h =>
    refine ⟨h.nbUsrResults, ?_⟩
    rw [h.nbResult]
    exact Nat.le_add_right _ _

theorem Stepped.rank_of_ne (hs : Stepped net s r a s') (hv : v ≠ r) : s'.rank v = s.rank v := by
  cases hs with
  | spin | land | deliver => rfl
  | _ => exact Function.update_of_ne hv _ _

theorem sameAccount_giveUp (h : RankOk net r m t) (p : Push n) (selected : List Bool) :
    SameAccount t (giveUp m t p selected) ∧ (t.tmp = none → (giveUp m t p selected).tmp = none) := by
  rcases h.giveUp p selected with ⟨-, heq⟩ | ⟨-, heq⟩ | ⟨-, heq⟩ <;> rw [heq] <;>
    exact ⟨⟨rfl, rfl, rfl, rfl, rfl, rfl⟩, id⟩

theorem sameAccount_settle (h : RankOk net r m t) (p : Push n) (res : Reservation n) :
    SameAccount t (settle m t p res) ∧ (t.tmp = none → (settle m t p res).tmp = none) := by
  rcases h.settle p res with ⟨-, heq⟩ | ⟨i, -, heq⟩ | ⟨-, heq⟩ <;> rw [heq]
  · exact ⟨⟨rfl, rfl, rfl, rfl, rfl, rfl⟩, fun _ => rfl⟩
  · exact ⟨⟨rfl, rfl, rfl, rfl, rfl, rfl⟩, id⟩
  · exact ⟨⟨rfl, rfl, rfl, rfl, rfl, rfl⟩, id⟩

theorem Stepped.accounted (h : ResultsOk net s) (hs : Stepped net s r a s') :
    Accounted s r a (s'.rank r) := by
  have hr := h.rank r
  cases hs with
  | pushOwn k id nb size owner data e he hsound hpc htmp howner =>
    apply Accounted.submit e howner (.inr ⟨k, id, nb, size, owner, data, rfl, he⟩)
    rw [State.rank_setRank, Function.update_self]
    exact ⟨rfl, rfl, rfl, rfl, rfl, rfl⟩
  | submit c off x e hpc hx hspot he howner =>
    apply Accounted.submit e howner (.inl ?_)
    · rw [State.rank_setRank, Function.update_self]
      exact ⟨rfl, rfl, rfl, rfl, rfl, rfl⟩
    · have hcarrying : (s.rank r).pc.carrying = none := by
        rw [hpc]
        rfl
      simp only [At, elements, hpc, ResultPc.collected, if_true]
      rw [remaining_of_carrying hcarrying]
      refine List.mem_filterMap.mpr ⟨x, List.mem_of_find?_eq_some hx, ?_⟩
      have helt := he.elt
      simp only [Transit.elt, hspot] at helt
      simpa only [Transit.onSegment, hspot] using helt
  | spin | land | deliver => exact .same (.refl _)
  | lockFailed p hpc hst =>
    rw [State.rank_setRank, Function.update_self]
    exact .same (sameAccount_giveUp hr p []).1
  | releaseEmpty p res hpc helts =>
    rw [State.rank_setRank, Function.update_self]
    exact .same (sameAccount_giveUp hr p res.selected).1
  | post p res hpc =>
    rw [State.rank_setRank, Function.update_self]
    exact .same (sameAccount_settle hr p res).1
  | _ =>
    rw [State.rank_setRank, Function.update_self]
    exact .same ⟨rfl, rfl, rfl, rfl, rfl, rfl⟩

/-- Only a push puts something into the tmp segment. -/
theorem Stepped.tmp (h : ResultsOk net s) (hs : Stepped net s r a s')
    (ha : ∀ k id nb size owner data, a ≠ .push k id nb size owner data)
    (htmp : (s.rank r).tmp = none) : (s'.rank r).tmp = none := by
  have hr := h.rank r
  cases hs with
  | pushOwn k id nb size owner data => exact absurd rfl (ha k id nb size owner data)
  | pushTmp k id nb size owner data => exact absurd rfl (ha k id nb size owner data)
  | spin | land | deliver => exact htmp
  | lockFailed p hpc hst =>
    rw [State.rank_setRank, Function.update_self]
    exact (sameAccount_giveUp hr p []).2 htmp
  | releaseEmpty p res hpc helts =>
    rw [State.rank_setRank, Function.update_self]
    exact (sameAccount_giveUp hr p res.selected).2 htmp
  | post p res hpc =>
    rw [State.rank_setRank, Function.update_self]
    exact (sameAccount_settle hr p res).2 htmp
  | _ =>
    rw [State.rank_setRank, Function.update_self]
    exact htmp

/-- Only a push adds to the elements pushed. -/
theorem Stepped.pushed (h : ResultsOk net s) (hs : Stepped net s r a s')
    (ha : ∀ k id nb size owner data, a ≠ .push k id nb size owner data) :
    (s'.rank r).pushed = (s.rank r).pushed := by
  have hr := h.rank r
  cases hs with
  | pushOwn k id nb size owner data => exact absurd rfl (ha k id nb size owner data)
  | pushTmp k id nb size owner data => exact absurd rfl (ha k id nb size owner data)
  | spin | land | deliver => rfl
  | lockFailed p hpc hst =>
    rw [State.rank_setRank, Function.update_self]
    rcases hr.giveUp p [] with ⟨-, heq⟩ | ⟨-, heq⟩ | ⟨-, heq⟩ <;> simp only [heq, settled]
  | releaseEmpty p res hpc helts =>
    rw [State.rank_setRank, Function.update_self]
    rcases hr.giveUp p res.selected with ⟨-, heq⟩ | ⟨-, heq⟩ | ⟨-, heq⟩ <;> simp only [heq, settled]
  | post p res hpc =>
    rw [State.rank_setRank, Function.update_self]
    rcases hr.settle p res with ⟨-, heq⟩ | ⟨i, -, heq⟩ | ⟨-, heq⟩ <;> simp only [heq, settled]
  | _ => simp [submitResults]

theorem pushed_of_push {k id nb size : ℕ} {owner : Fin n} {data : List UInt8}
    (hs : next net s (r, .push k id nb size owner data) = some s') :
    (s'.rank r).pushed = newElt (s.rank r) r k id nb size owner data :: (s.rank r).pushed := by
  simp only [next] at hs
  split at hs <;> cases hs
  rw [State.rank_setRank, Function.update_self, startPush]
  split <;> rfl

end Titus.Results
