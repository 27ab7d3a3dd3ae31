import Mathlib.Data.Fintype.BigOperators
import Titus.Lib.Ledger
import Titus.Results.SegmentInvariant

/-! Where the results are: in the tmp segment, submitted, in a slot of a result segment or in
`local_transiting_results`, and how each step moves them.  An element moves when a slot is reserved
for it, and when a flush puts it aside or submits it. -/

namespace Titus.Results

variable {n : ℕ} {net : Network n} {r v : Fin n} {s s' : State n} {a : Action n}
  {m : BufferedSegment n} {t : RankResults n}

/-! ### Places -/

/-- A push at this point has reserved space for these elements, and they are still where they were
before. -/
def ResultPc.carrying : ResultPc n → Option (Push n × Reservation n)
  | .addingCount p res | .releasing p res | .posting p res =>
    if res.elts = [] then none else some (p, res)
  | _ => none

/-- In a flush the elements on the segment have been put into `local_transiting_results`. -/
def ResultPc.collected : ResultPc n → Bool
  | .grouping _ | .purging => true
  | .reserving p | .reading p | .addingHead p _ | .addingCount p _ | .releasing p _ |
    .posting p _ => p.site = .group
  | _ => false

/-- The entries without those that a slot is reserved for elsewhere. -/
def remaining (t : RankResults n) : List (Transit n) :=
  match t.pc.carrying with
  | none => t.localTransitingResults
  | some (p, res) =>
    match p.site with
    | .tmp => t.localTransitingResults
    | .transit i => t.localTransitingResults.eraseIdx i
    | .group => Selection.keep (ofKey p.target) res.selected t.localTransitingResults

/-- The element of an entry that is on the segment. -/
def Transit.onSegment (area : ℕ → Option (BufferElt n)) (x : Transit n) : Option (BufferElt n) :=
  match x.spot with
  | .onSegment off => area off
  | .inMemory _ => none

/-- The element of an entry that is in memory of its own. -/
def Transit.inMemory (x : Transit n) : Option (BufferElt n) :=
  match x.spot with
  | .onSegment _ => none
  | .inMemory e => some e

/-- The kinds of places. -/
inductive Kind
  /-- The tmp segment. -/
  | tmp
  /-- Given to `submit_results`. -/
  | submitted
  /-- A reserved slot of the result segment, written or not. -/
  | slot
  /-- `local_transiting_results`, in memory of its own. -/
  | transiting
deriving DecidableEq

instance : Fintype Kind where
  elems := {.tmp, .submitted, .slot, .transiting}
  complete k := by cases k <;> decide

theorem sum_kind (f : Kind → ℕ) :
    ∑ k, f k = f .tmp + f .submitted + f .slot + f .transiting := by
  change ∑ k ∈ {Kind.tmp, .submitted, .slot, .transiting}, f k = _
  simp [Nat.add_assoc]

/-- The elements in the places of a rank with the segment `m`. -/
def elements (m : BufferedSegment n) (t : RankResults n) : Kind → List (BufferElt n)
  | .tmp =>
    match t.pc.carrying with
    | some (⟨.tmp, _⟩, _) => []
    | _ => t.tmp.toList
  | .submitted => t.submitted
  | .slot =>
    if t.pc.collected then (remaining t).filterMap (Transit.onSegment m.area)
    else m.reserved.map Prod.snd
  | .transiting => (remaining t).filterMap Transit.inMemory

/-- A place, of a kind and on a rank. -/
abbrev Place (n : ℕ) := Kind × Fin n

/-- The copies of an element in a place. -/
def copiesAt (s : State n) (e : BufferElt n) (p : Place n) : ℕ :=
  (elements (s.segment p.2) (s.rank p.2) p.1).count e

/-- The batch of `e` was given to `push_tmp_results`. -/
def Pushed (s : State n) (e : BufferElt n) : Prop := ∃ r, e ∈ (s.rank r).pushed

/-- How an element moves. -/
inductive Move (net : Network n) (e : BufferElt n) : Place n → Place n → Prop
  /-- From the tmp segment to the result segment of the same rank. -/
  | reserve (r : Fin n) : Move net e (.tmp, r) (.slot, r)
  /-- From the result segment of a rank to that of the next hop. -/
  | forward (r : Fin n) (h : e.owner ≠ r) :
    Move net e (.slot, r) (.slot, net.selectNextHopTo r e.owner)
  /-- The same for an element put aside before. -/
  | forwardTransiting (r : Fin n) (h : e.owner ≠ r) :
    Move net e (.transiting, r) (.slot, net.selectNextHopTo r e.owner)
  | putAside (r : Fin n) (h : e.owner ≠ r) : Move net e (.slot, r) (.transiting, r)
  | submit : Move net e (.slot, e.owner) (.submitted, e.owner)

/-! ### Elements of the map -/

section Map

/-- The elements of the entries of a map, wherever they are. -/
def mapped (area : ℕ → Option (BufferElt n)) (l : List (Transit n)) : List (BufferElt n) :=
  l.filterMap (Transit.elt area)

theorem count_mapped (area : ℕ → Option (BufferElt n)) (l : List (Transit n)) (e : BufferElt n) :
    (mapped area l).count e = (l.filterMap (Transit.onSegment area)).count e +
      (l.filterMap Transit.inMemory).count e := by
  induction l with
  | nil => rfl
  | cons x l ih =>
    obtain ⟨key, spot⟩ := x
    unfold mapped at ih ⊢
    cases spot with
    | inMemory e' =>
      simp only [List.filterMap_cons, Transit.elt, Transit.onSegment, Transit.inMemory,
        List.count_cons, ih]
      omega
    | onSegment off =>
      cases harea : area off with
      | none =>
        simp only [List.filterMap_cons, Transit.elt, Transit.onSegment, Transit.inMemory, harea, ih]
      | some e' =>
        simp only [List.filterMap_cons, Transit.elt, Transit.onSegment, Transit.inMemory, harea,
          List.count_cons, ih]
        omega

end Map

/-! ### Steps that move nothing -/

section Quiet

variable {m' : BufferedSegment n} {t' : RankResults n}

theorem remaining_of_carrying (h : t.pc.carrying = none) :
    remaining t = t.localTransitingResults := by
  unfold remaining
  rw [h]

theorem elements_tmp_of_carrying (h : t.pc.carrying = none) :
    elements m t .tmp = t.tmp.toList := by
  simp only [elements, h]

theorem elements_congr (htmp : elements m' t' .tmp = elements m t .tmp)
    (hsubmitted : t'.submitted = t.submitted) (hcollected : t'.pc.collected = t.pc.collected)
    (hremaining : remaining t' = remaining t) (hreserved : m'.reserved = m.reserved)
    (harea : m'.area = m.area ∨ t.pc.collected = false) (k : Kind) :
    elements m' t' k = elements m t k := by
  cases k with
  | tmp => exact htmp
  | submitted => exact hsubmitted
  | transiting => simp only [elements, hremaining]
  | slot =>
    simp only [elements, hremaining, hreserved, hcollected]
    rcases harea with harea | hfalse
    · rw [harea]
    · simp only [hfalse, Bool.false_eq_true, if_false]

/-- The rank goes on to another point without reserving or collecting anything. -/
theorem elements_setPc {pc : ResultPc n} (hcarrying : pc.carrying = t.pc.carrying)
    (hcollected : pc.collected = t.pc.collected) (hreserved : m'.reserved = m.reserved)
    (harea : m'.area = m.area ∨ t.pc.collected = false) (k : Kind) :
    elements m' { t with pc } k = elements m t k := by
  refine elements_congr ?_ (by rfl) hcollected ?_ hreserved harea k
  · simp only [elements, hcarrying]
  · simp only [remaining, hcarrying]

theorem elements_setSegment (hreserved : m'.reserved = m.reserved)
    (harea : m'.area = m.area ∨ t.pc.collected = false) (k : Kind) :
    elements m' t k = elements m t k :=
  elements_congr (m := m) (t := t) (by rfl) rfl rfl rfl hreserved harea k

/-- In a step that changes the segment of `v` and rank `r`, nothing moves if nothing does there. -/
theorem at_update (hr : ∀ k, elements (Function.update s.segment v m r) t k =
      elements (s.segment r) (s.rank r) k)
    (hv : v ≠ r → ∀ k, elements m (s.rank v) k = elements (s.segment v) (s.rank v) k)
    (e : BufferElt n) (p : Place n) :
    copiesAt ((s.setSegment v m).setRank r t) e p = copiesAt s e p := by
  obtain ⟨k, q⟩ := p
  simp only [copiesAt, State.segment_setRank, State.segment_setSegment, State.rank_setRank,
    State.rank_setSegment]
  by_cases hq : q = r
  · subst hq
    rw [Function.update_self, hr]
  · rw [Function.update_of_ne hq]
    by_cases hqv : q = v
    · subst hqv
      rw [Function.update_self, hv hq]
    · rw [Function.update_of_ne hqv]

theorem at_arrival (hv : ∀ k, elements m (s.rank v) k = elements (s.segment v) (s.rank v) k)
    (e : BufferElt n) (p : Place n) : copiesAt (s.setSegment v m) e p = copiesAt s e p := by
  obtain ⟨k, q⟩ := p
  simp only [copiesAt, State.segment_setSegment, State.rank_setSegment]
  by_cases hqv : q = v
  · subst hqv
    rw [Function.update_self, hv]
  · rw [Function.update_of_ne hqv]

end Quiet

/-! ### What a step does to the elements -/

/-- What a step does: it takes a new batch, or it moves elements. -/
inductive Effect (net : Network n) (r : Fin n) (s s' : State n) : Prop
  | push (e : BufferElt n) (k : Kind) (hk : k = .tmp ∨ k = .submitted ∧ e.owner = r)
    (hproducer : e.batch.producer = r) (hseq : e.batch.seq = (s.rank r).pushed.length)
    (hpushed : ∀ q, (s'.rank q).pushed =
      if q = r then e :: (s.rank q).pushed else (s.rank q).pushed)
    (hcopies : ∀ e' p, copiesAt s' e' p =
      copiesAt s e' p + if p = (k, r) ∧ e = e' then 1 else 0)
  | move (hpushed : ∀ q, (s'.rank q).pushed = (s.rank q).pushed)
    (htotal : ∀ e, ∑ p, copiesAt s' e p = ∑ p, copiesAt s e p)
    (hmove : ∀ e p, 0 < copiesAt s' e p → 0 < copiesAt s e p ∨
      ∃ p', 0 < copiesAt s e p' ∧ Move net e p' p)

/-- The segment and the state of a rank. -/
def State.pair (s : State n) (q : Fin n) : BufferedSegment n × RankResults n :=
  (s.segment q, s.rank q)

/-- The copies of `e` on a rank. -/
def held (e : BufferElt n) (q : BufferedSegment n × RankResults n) : ℕ :=
  ∑ k, (elements q.1 q.2 k).count e

theorem sum_copiesAt (s : State n) (e : BufferElt n) :
    ∑ p, copiesAt s e p = Ledger.total (fun _ => held e) s.pair := by
  rw [Fintype.sum_prod_type_right]
  rfl

/-- A step of rank `r` that changes the segment of `v`. -/
theorem pair_update (s : State n) (v r : Fin n) (m : BufferedSegment n) (t : RankResults n) :
    ((s.setSegment v m).setRank r t).pair = Function.update
      (Function.update s.pair v (m, s.rank v)) r (Function.update s.segment v m r, t) := by
  funext q
  by_cases hq : q = r
  · subst hq
    simp [State.pair]
  · by_cases hqv : q = v
    · subst hqv
      simp [State.pair, Function.update_of_ne hq]
    · simp [State.pair, Function.update_of_ne hq, Function.update_of_ne hqv]

theorem copiesAt_pos {e : BufferElt n} {p : Place n} :
    0 < copiesAt s e p ↔ e ∈ elements (s.segment p.2) (s.rank p.2) p.1 := List.count_pos_iff

theorem Effect.quiet (hpushed : ∀ q, (s'.rank q).pushed = (s.rank q).pushed)
    (hcopies : ∀ e p, copiesAt s' e p = copiesAt s e p) : Effect net r s s' :=
  .move hpushed (fun e => Finset.sum_congr rfl fun p _ => hcopies e p)
    fun e p hp => .inl (by rwa [← hcopies])

theorem pushed_update (hpushed : t.pushed = (s.rank r).pushed) (q : Fin n) :
    (((s.setSegment v m).setRank r t).rank q).pushed = (s.rank q).pushed := by
  simp only [State.rank_setRank, State.rank_setSegment]
  by_cases hq : q = r
  · subst hq
    rw [Function.update_self, hpushed]
  · rw [Function.update_of_ne hq]

/-- A step that moves nothing. -/
theorem Effect.still (hpushed : t.pushed = (s.rank r).pushed)
    (hr : ∀ k, elements (Function.update s.segment v m r) t k =
      elements (s.segment r) (s.rank r) k)
    (hv : v ≠ r → ∀ k, elements m (s.rank v) k = elements (s.segment v) (s.rank v) k) :
    Effect net r s ((s.setSegment v m).setRank r t) :=
  .quiet (pushed_update hpushed) (at_update hr hv)

/-- A step that moves elements on rank `r` only. -/
theorem Effect.within (hpushed : t.pushed = (s.rank r).pushed)
    (hv : v ≠ r → ∀ k, elements m (s.rank v) k = elements (s.segment v) (s.rank v) k)
    (hheld : ∀ e, held e (Function.update s.segment v m r, t) = held e (s.pair r))
    (hmove : ∀ e k, e ∈ elements (Function.update s.segment v m r) t k →
      e ∈ elements (s.segment r) (s.rank r) k ∨
        ∃ k', e ∈ elements (s.segment r) (s.rank r) k' ∧ Move net e (k', r) (k, r)) :
    Effect net r s ((s.setSegment v m).setRank r t) := by
  refine .move (pushed_update hpushed) (fun e => ?_) fun e p hp => ?_
  · rw [sum_copiesAt, sum_copiesAt, pair_update]
    by_cases hvr : v = r
    · subst hvr
      rw [Function.update_idem]
      exact Ledger.total_update_eq (hheld e)
    · refine Ledger.total_update_update hvr ?_
      rw [hheld]
      simp only [held, State.pair, hv hvr]
  · obtain ⟨k, q⟩ := p
    rw [copiesAt_pos] at hp ⊢
    simp only [State.segment_setRank, State.segment_setSegment, State.rank_setRank,
      State.rank_setSegment] at hp
    by_cases hq : q = r
    · subst hq
      rw [Function.update_self] at hp
      refine (hmove e k hp).imp_right ?_
      rintro ⟨k', hk', hmv⟩
      exact ⟨(k', q), copiesAt_pos.mpr hk', hmv⟩
    · rw [Function.update_of_ne hq] at hp
      by_cases hqv : q = v
      · subst hqv
        rw [Function.update_self, hv hq] at hp
        exact .inl hp
      · rw [Function.update_of_ne hqv] at hp
        exact .inl hp

/-- A step that moves elements from rank `r` to the segment of `v`. -/
theorem Effect.across (hvr : v ≠ r) (hpushed : t.pushed = (s.rank r).pushed)
    (hheld : ∀ e, held e (m, s.rank v) + held e (s.segment r, t) =
      held e (s.pair v) + held e (s.pair r))
    (hr : ∀ e k, e ∈ elements (s.segment r) t k → e ∈ elements (s.segment r) (s.rank r) k)
    (hv : ∀ e k, e ∈ elements m (s.rank v) k → e ∈ elements (s.segment v) (s.rank v) k ∨
      ∃ k', e ∈ elements (s.segment r) (s.rank r) k' ∧ Move net e (k', r) (k, v)) :
    Effect net r s ((s.setSegment v m).setRank r t) := by
  refine .move (pushed_update hpushed) (fun e => ?_) fun e p hp => ?_
  · rw [sum_copiesAt, sum_copiesAt, pair_update, Function.update_of_ne hvr.symm]
    exact Ledger.total_update_update hvr (hheld e)
  · obtain ⟨k, q⟩ := p
    rw [copiesAt_pos] at hp ⊢
    simp only [State.segment_setRank, State.segment_setSegment, State.rank_setRank,
      State.rank_setSegment] at hp
    by_cases hq : q = r
    · subst hq
      rw [Function.update_self, Function.update_of_ne hvr.symm] at hp
      exact .inl (hr e k hp)
    · rw [Function.update_of_ne hq] at hp
      by_cases hqv : q = v
      · subst hqv
        rw [Function.update_self] at hp
        refine (hv e k hp).imp_right ?_
        rintro ⟨k', hk', hmv⟩
        exact ⟨(k', r), copiesAt_pos.mpr hk', hmv⟩
      · rw [Function.update_of_ne hqv] at hp
        exact .inl hp

/-- The steps that change no segment. -/
theorem Effect.still_setRank (hpushed : t.pushed = (s.rank r).pushed)
    (hr : ∀ k, elements (s.segment r) t k = elements (s.segment r) (s.rank r) k) :
    Effect net r s (s.setRank r t) := by
  have : Effect net r s ((s.setSegment r (s.segment r)).setRank r t) :=
    .still hpushed (by rwa [Function.update_eq_self]) (fun hne => absurd rfl hne)
  rwa [State.setSegment_self] at this

theorem Effect.within_setRank (hpushed : t.pushed = (s.rank r).pushed)
    (hheld : ∀ e, held e (s.segment r, t) = held e (s.pair r))
    (hmove : ∀ e k, e ∈ elements (s.segment r) t k → e ∈ elements (s.segment r) (s.rank r) k ∨
      ∃ k', e ∈ elements (s.segment r) (s.rank r) k' ∧ Move net e (k', r) (k, r)) :
    Effect net r s (s.setRank r t) := by
  have : Effect net r s ((s.setSegment r (s.segment r)).setRank r t) :=
    .within hpushed (fun hne => absurd rfl hne) (by rwa [Function.update_eq_self])
      (by rwa [Function.update_eq_self])
  rwa [State.setSegment_self] at this

/-! ### The elements of a push -/

section Sent

theorem elt_putAside (area : ℕ → Option (BufferElt n)) (x : Transit n) :
    (putAside area x).elt area = x.elt area := by
  obtain ⟨key, spot⟩ := x
  cases spot with
  | inMemory e => rfl
  | onSegment off => cases harea : area off <;> simp [putAside, Transit.elt, harea]

/-- The destination of a push of entries is another rank. -/
theorem RankOk.target_ne (h : RankOk net r m t) {p : Push n} (hpush : t.pc.push = some p)
    (hsite : p.site ≠ .tmp) : p.target ≠ r := by
  have hp := h.push p hpush
  unfold PushOk at hp
  split at hp
  · exact absurd ‹_› hsite
  · rename_i i hi
    obtain ⟨x, hx, hkey⟩ := hp
    have hmem := List.mem_of_getElem? hx
    obtain ⟨e, he⟩ := h.entries x hmem
    cases hspot : x.spot with
    | inMemory e' =>
      have helt := he.elt
      rw [elt_inMemory hspot] at helt
      cases helt
      rw [← hkey, he.key]
      exact keyOf_ne (he.aside hspot)
    | onSegment off =>
      refine absurd hspot (h.inMemory ?_ hmem off)
      revert hpush
      cases t.pc <;> intro hpush <;> cases hpush <;> simp only [ResultPc.cursor, hi] <;> rfl
  · exact hp.1

/-- The entries that a push has selected, and those that remain. -/
theorem RankOk.sent (h : RankOk net r m t) {p : Push n} {res : Reservation n}
    (hselected : t.pc.selected = some (p, res)) (hsite : p.site ≠ .tmp) (helts : res.elts ≠ [])
    {pc : ResultPc n} (hcarrying : pc.carrying = some (p, res)) :
    ∃ sent, mapped m.area sent = res.elts ∧
      (sent ++ remaining { t with pc }).Perm t.localTransitingResults ∧
      ∀ x ∈ sent, x.key = p.target := by
  have hsel := h.selected p res hselected
  have hp := h.push p (by
    revert hselected
    cases t.pc <;> intro hselected <;> cases hselected <;> rfl)
  simp only [remaining, hcarrying]
  unfold PushOk at hp
  unfold offered at hsel
  split at hp
  · exact absurd ‹_› hsite
  · rename_i i hi
    obtain ⟨x, hx, hkey⟩ := hp
    obtain ⟨e, he⟩ := h.entries x (List.mem_of_getElem? hx)
    simp only [hi, hx, Option.bind_some, he.elt, Option.toList_some] at hsel ⊢
    refine ⟨[x], ?_, ?_, by simpa using hkey⟩
    · have hsub := Selection.pick_sublist res.selected [e]
      rw [← hsel] at hsub
      rcases List.sublist_singleton.mp hsub with hnil | hone
      · exact absurd hnil helts
      · simp [mapped, he.elt, hone]
    · obtain ⟨hi, rfl⟩ := List.getElem?_eq_some_iff.mp hx
      exact List.getElem_cons_eraseIdx_perm hi
  · rename_i hi
    simp only [hi] at hsel ⊢
    refine ⟨Selection.pick res.selected (t.localTransitingResults.filter (ofKey p.target)), ?_,
      Selection.pick_append_keep_perm _ _ _, fun x hx => ?_⟩
    · rw [hsel, mapped, Selection.pick_filterMap]
      intro x hx
      obtain ⟨e, he⟩ := h.entries x (List.mem_of_mem_filter hx)
      rw [he.elt]
      rfl
    · have := (Selection.pick_sublist _ _).subset hx
      exact ofKey_iff.mp (List.mem_filter.mp this).2

end Sent

/-! ### What a rank holds -/

section Held

theorem cursor_of_not_collected {pc : ResultPc n} (h : pc.collected = false) :
    pc.cursor = none := by
  cases pc <;> simp_all [ResultPc.collected, ResultPc.cursor]

theorem not_collected_of_not_flushing {pc : ResultPc n} (h : pc.flushing = false) :
    pc.collected = false := by
  cases pc <;> simp_all [ResultPc.collected, ResultPc.flushing]

theorem drained_of_collected {pc : ResultPc n} (h : pc.collected) : pc.drained := by
  cases pc <;> simp_all [ResultPc.collected, ResultPc.drained]

theorem onSegment_eq_none {x : Transit n} (h : ∀ off, x.spot ≠ .onSegment off)
    (area : ℕ → Option (BufferElt n)) : x.onSegment area = none := by
  cases hspot : x.spot with
  | inMemory e => simp only [Transit.onSegment, hspot]
  | onSegment off => exact absurd hspot (h off)

theorem filterMap_onSegment_eq_nil {l : List (Transit n)}
    (h : ∀ x ∈ l, ∀ off, x.spot ≠ .onSegment off) (area : ℕ → Option (BufferElt n)) :
    l.filterMap (Transit.onSegment area) = [] :=
  List.filterMap_eq_nil_iff.mpr fun x hx => onSegment_eq_none (h x hx) area

theorem held_eq (e : BufferElt n) (m : BufferedSegment n) (t : RankResults n) :
    held e (m, t) = (elements m t .tmp).count e + t.submitted.count e +
      (elements m t .slot).count e + (elements m t .transiting).count e :=
  sum_kind _

/-- The elements on the segment and in the map are those of the entries, and before a flush has
collected them those in the reserved slots. -/
theorem count_entries (h : t.pc.collected = false →
      ∀ x ∈ remaining t, ∀ off, x.spot ≠ .onSegment off) (e : BufferElt n) :
    (elements m t .slot).count e + (elements m t .transiting).count e =
      (mapped m.area (remaining t)).count e +
        if t.pc.collected then 0 else (m.reserved.map Prod.snd).count e := by
  rw [count_mapped]
  simp only [elements]
  cases hc : t.pc.collected with
  | true => simp only [if_true, Nat.add_zero]
  | false =>
    rw [filterMap_onSegment_eq_nil (h hc)]
    simp only [Bool.false_eq_true, if_false, List.count_nil]
    omega

/-- The element of an entry is on the segment or in the map. -/
theorem RankOk.mem_elements (h : RankOk net r m t) (hcarrying : t.pc.carrying = none)
    {x : Transit n} (hx : x ∈ t.localTransitingResults) {e : BufferElt n}
    (he : x.elt m.area = some e) : e ∈ elements m t .slot ∨ e ∈ elements m t .transiting := by
  have hrem := remaining_of_carrying hcarrying
  cases hspot : x.spot with
  | inMemory e' =>
    rw [elt_inMemory hspot] at he
    refine .inr (List.mem_filterMap.mpr ⟨x, hrem ▸ hx, ?_⟩)
    simpa only [Transit.inMemory, hspot] using he
  | onSegment off =>
    have hcollected : t.pc.collected = true := by
      by_contra hc
      exact h.inMemory (cursor_of_not_collected (Bool.eq_false_of_not_eq_true hc)) hx off hspot
    refine .inl ?_
    simp only [elements, hcollected, if_true]
    refine List.mem_filterMap.mpr ⟨x, hrem ▸ hx, ?_⟩
    simp only [Transit.elt, hspot] at he
    simpa only [Transit.onSegment, hspot] using he

theorem elements_tmp_of_site {p : Push n} {res : Reservation n}
    (h : t.pc.carrying = some (p, res)) (hsite : p.site ≠ .tmp) :
    elements m t .tmp = t.tmp.toList := by
  obtain ⟨site, target⟩ := p
  cases site with
  | tmp => exact absurd rfl hsite
  | transit i | group => simp only [elements, h]

end Held

/-! ### The end of a push of a group -/

section Settled

/-- Putting aside does not change the elements of the entries. -/
theorem mapped_settled (area : ℕ → Option (BufferElt n)) (k : Fin n) (l : List (Transit n)) :
    mapped area (l.map fun x => if ofKey k x then putAside area x else x) = mapped area l := by
  rw [mapped, List.filterMap_map]
  refine List.filterMap_congr fun x _ => ?_
  simp only [Function.comp_apply]
  split
  · exact elt_putAside area x
  · rfl

theorem remaining_settled (k : Fin n) (selected : List Bool) :
    remaining (settled m t k selected) =
      (Selection.keep (ofKey k) selected t.localTransitingResults).map
        fun x => if ofKey k x then putAside m.area x else x := rfl

/-- Putting elements aside moves them from the segment to the map. -/
theorem RankOk.mem_settled (h : RankOk net r m t) {k : Fin n} (hk : k ≠ r) {selected : List Bool}
    (hcollected : t.pc.collected)
    (hremaining : remaining t = Selection.keep (ofKey k) selected t.localTransitingResults)
    (htmp : elements m t .tmp = t.tmp.toList) {e : BufferElt n} {k' : Kind}
    (he : e ∈ elements m (Results.settled m t k selected) k') :
    e ∈ elements m t k' ∨ k' = .transiting ∧ e ∈ elements m t .slot ∧ e.owner ≠ r := by
  have hslot : elements m t .slot = (remaining t).filterMap (Transit.onSegment m.area) := by
    simp only [elements, hcollected, if_true]
  have hentry : ∀ x ∈ remaining t, ofKey k x → ∃ e', EntryOk net r m x e' ∧ e'.owner ≠ r ∧
      (putAside m.area x).spot = .inMemory e' := by
    intro x hx hxk
    rw [hremaining] at hx
    obtain ⟨e', he'⟩ := h.entries x ((Selection.keep_sublist _ _ _).subset hx)
    have howner := he'.owner_ne ((ofKey_iff.mp hxk).trans_ne hk)
    exact ⟨e', he', howner, (he'.putAside howner).2.1⟩
  cases k' with
  | tmp => exact .inl (htmp ▸ he)
  | submitted => exact .inl he
  | slot =>
    change e ∈ (remaining (Results.settled m t k selected)).filterMap (Transit.onSegment m.area)
      at he
    rw [remaining_settled, ← hremaining] at he
    obtain ⟨y, hy, hye⟩ := List.mem_filterMap.mp he
    obtain ⟨x, hx, rfl⟩ := List.mem_map.mp hy
    rw [hslot]
    split at hye
    · obtain ⟨e', -, -, hspot⟩ := hentry x hx ‹_›
      simp only [Transit.onSegment, hspot] at hye
      cases hye
    · exact .inl (List.mem_filterMap.mpr ⟨x, hx, hye⟩)
  | transiting =>
    change e ∈ (remaining (Results.settled m t k selected)).filterMap Transit.inMemory at he
    rw [remaining_settled, ← hremaining] at he
    obtain ⟨y, hy, hye⟩ := List.mem_filterMap.mp he
    obtain ⟨x, hx, rfl⟩ := List.mem_map.mp hy
    split at hye
    · obtain ⟨e', he', howner, hspot⟩ := hentry x hx ‹_›
      simp only [Transit.inMemory, hspot] at hye
      cases hye
      have helt := he'.elt
      cases hxspot : x.spot with
      | inMemory e'' =>
        rw [elt_inMemory hxspot] at helt
        refine .inl (List.mem_filterMap.mpr ⟨x, hx, ?_⟩)
        simpa only [Transit.inMemory, hxspot] using helt
      | onSegment off =>
        simp only [Transit.elt, hxspot] at helt
        refine .inr ⟨rfl, ?_, howner⟩
        rw [hslot]
        refine List.mem_filterMap.mpr ⟨x, hx, ?_⟩
        simpa only [Transit.onSegment, hxspot] using helt
    · exact .inl (List.mem_filterMap.mpr ⟨x, hx, hye⟩)

theorem held_settled {k : Fin n} {selected : List Bool} (hcollected : t.pc.collected)
    (hremaining : remaining t = Selection.keep (ofKey k) selected t.localTransitingResults)
    (htmp : elements m t .tmp = t.tmp.toList) (e : BufferElt n) :
    held e (m, settled m t k selected) = held e (m, t) := by
  have h1 := count_entries (m := m) (t := settled m t k selected) nofun e
  have h2 := count_entries (m := m) (t := t) (fun hc => absurd hcollected (by rw [hc]; nofun)) e
  rw [remaining_settled, mapped_settled, ← hremaining] at h1
  rw [held_eq, held_eq, htmp]
  simp only [hcollected, if_true] at h2
  change _ = _ + 0 at h1
  change t.tmp.toList.count e + t.submitted.count e + _ + _ = _
  omega

/-- The end of a push of a group of rank `r`, in a step that leaves the elements on the segments
where they are. -/
theorem ResultsOk.effect_settled (h : ResultsOk net s) {k : Fin n} (hk : k ≠ r)
    {selected : List Bool} (hcollected : (s.rank r).pc.collected)
    (hremaining : remaining (s.rank r) =
      Selection.keep (ofKey k) selected (s.rank r).localTransitingResults)
    (htmp : elements (s.segment r) (s.rank r) .tmp = (s.rank r).tmp.toList)
    (hreserved : m.reserved = (s.segment v).reserved) (harea : m.area = (s.segment v).area) :
    Effect net r s ((s.setSegment v m).setRank r (settled (s.segment r) (s.rank r) k selected)) := by
  have hown : ∀ k', elements (Function.update s.segment v m r)
      (settled (s.segment r) (s.rank r) k selected) k' =
      elements (s.segment r) (settled (s.segment r) (s.rank r) k selected) k' := by
    intro k'
    by_cases hrv : r = v
    · subst hrv
      rw [Function.update_self]
      exact elements_setSegment hreserved (.inl harea) k'
    · rw [Function.update_of_ne hrv]
  refine .within (by rfl) (fun _ => elements_setSegment hreserved (.inl harea)) (fun e => ?_)
    fun e k' he => ?_
  · have := held_settled hcollected hremaining htmp e
    simp only [held, State.pair, hown] at this ⊢
    exact this
  · rw [hown] at he
    rcases (h.rank r).mem_settled hk hcollected hremaining htmp he with he | ⟨rfl, he, howner⟩
    · exact .inl he
    · exact .inr ⟨.slot, he, .putAside r howner⟩

/-- A push of rank `r` that has reserved nothing ends. -/
theorem ResultsOk.effect_giveUp (h : ResultsOk net s) {p : Push n} {selected : List Bool}
    (hpush : (s.rank r).pc.push = some p) (hcarrying : (s.rank r).pc.carrying = none)
    (hpick : Selection.pick selected (offered (s.segment r).area (s.rank r) p) = [])
    (hreserved : m.reserved = (s.segment v).reserved) (harea : m.area = (s.segment v).area) :
    Effect net r s ((s.setSegment v m).setRank r
      (giveUp (s.segment r) (s.rank r) p selected)) := by
  have hr := h.rank r
  have hcollected : (s.rank r).pc.collected = (p.site = .group : Bool) := by
    revert hpush
    cases (s.rank r).pc <;> intro hpush <;> cases hpush <;> rfl
  have hplain : ∀ pc : ResultPc n, p.site ≠ .group → pc.carrying = none → pc.collected = false →
      Effect net r s ((s.setSegment v m).setRank r { s.rank r with pc }) := by
    intro pc hsite hpc hpc'
    have hfalse : (s.rank r).pc.collected = false := by simp [hcollected, hsite]
    refine .still (by rfl) (fun k => ?_) fun _ => elements_setSegment hreserved (.inl harea)
    refine elements_setPc (hpc.trans hcarrying.symm) (hpc'.trans hfalse.symm) ?_ (.inr hfalse) k
    by_cases hrv : r = v
    · subst hrv
      rw [Function.update_self, hreserved]
    · rw [Function.update_of_ne hrv]
  rcases hr.giveUp p selected with ⟨hsite, heq⟩ | ⟨⟨i, hsite⟩, heq⟩ | ⟨hsite, heq⟩ <;> rw [heq]
  · exact hplain .checking (by rw [hsite]; rintro ⟨⟩) rfl rfl
  · exact hplain .idle (by rw [hsite]; rintro ⟨⟩) rfl rfl
  · have hkeep : Selection.keep (ofKey p.target) selected (s.rank r).localTransitingResults =
        (s.rank r).localTransitingResults := by
      refine Selection.keep_eq_self ?_
      simp only [offered, hsite] at hpick
      rw [Selection.pick_filterMap] at hpick
      · refine List.eq_nil_iff_forall_not_mem.mpr fun x hx => ?_
        have hmem := List.mem_of_mem_filter ((Selection.pick_sublist _ _).subset hx)
        obtain ⟨e, he⟩ := hr.entries x hmem
        have hnone := List.filterMap_eq_nil_iff.mp hpick x hx
        rw [he.elt] at hnone
        cases hnone
      · intro x hx
        obtain ⟨e, he⟩ := hr.entries x (List.mem_of_mem_filter hx)
        rw [he.elt]
        rfl
    refine h.effect_settled (hr.target_ne hpush (by rw [hsite]; rintro ⟨⟩))
      (by simp [hcollected, hsite]) ?_ (elements_tmp_of_carrying hcarrying) hreserved harea
    rw [remaining_of_carrying hcarrying, hkeep]

end Settled

/-! ### The steps -/

section Stepped

/-- The entries of a map without a cursor have no elements on the segment. -/
theorem RankOk.onSegment_eq_nil (h : RankOk net r m t) (hcursor : t.pc.cursor = none) :
    t.localTransitingResults.filterMap (Transit.onSegment m.area) = [] :=
  filterMap_onSegment_eq_nil (fun _ hx off => h.inMemory hcursor hx off) _

/-- Collecting the elements of the segment moves nothing. -/
theorem RankOk.elements_collect (h : RankOk net r m t) {lag : ℕ}
    {carried : Fin n → Option (Message n)} (hseg : SegmentOk m t.pc carried lag)
    (hpc : t.pc = .collecting) (k : Kind) :
    elements m { t with
      localTransitingResults := t.localTransitingResults ++
        m.reserved.map fun w => ⟨keyOf net r w.2, .onSegment w.1⟩
      pc := .grouping 0 } k = elements m t k := by
  have harrived := hseg.delivery.arrived_of_not_pending (hseg.drained (by rw [hpc]; rfl)).1
  have hcarrying : t.pc.carrying = none := by rw [hpc]; rfl
  cases k with
  | tmp => rw [elements_tmp_of_carrying hcarrying, elements_tmp_of_carrying rfl]
  | submitted => rfl
  | slot =>
    have hold := h.onSegment_eq_nil (by rw [hpc]; rfl)
    have hnew : (m.reserved.map fun w => (⟨keyOf net r w.2, .onSegment w.1⟩ : Transit n)).filterMap
        (Transit.onSegment m.area) = m.reserved.map Prod.snd := by
      rw [List.filterMap_map, ← List.filterMap_eq_map]
      exact List.filterMap_congr fun w hw => harrived w hw
    simp only [elements, hpc, ResultPc.collected, remaining, ResultPc.carrying,
      List.filterMap_append, hold, hnew, List.nil_append, if_true, Bool.false_eq_true, if_false]
  | transiting =>
    have hnew : (m.reserved.map fun w => (⟨keyOf net r w.2, .onSegment w.1⟩ : Transit n)).filterMap
        Transit.inMemory = [] := by
      rw [List.filterMap_map]
      exact List.filterMap_eq_nil_iff.mpr fun _ _ => rfl
    simp only [elements, hpc, remaining, ResultPc.carrying, List.filterMap_append, hnew,
      List.append_nil]

theorem count_mapped_perm (area : ℕ → Option (BufferElt n)) {l l' : List (Transit n)}
    (h : l.Perm l') (e : BufferElt n) : (mapped area l).count e = (mapped area l').count e :=
  (h.filterMap _).count_eq e

/-- A flush submits an element. -/
theorem ResultsOk.effect_submit {c off : ℕ} {x : Transit n} {e : BufferElt n}
    (hpc : (s.rank r).pc = .grouping c)
    (hx : (s.rank r).localTransitingResults.find? (ofKey r) = some x)
    (hspot : x.spot = .onSegment off) (he : EntryOk net r (s.segment r) x e)
    (howner : e.owner = r) (hpc' : t.pc = (s.rank r).pc)
    (htransit : t.localTransitingResults = (s.rank r).localTransitingResults.eraseP (ofKey r))
    (htmp : t.tmp = (s.rank r).tmp) (hpushed : t.pushed = (s.rank r).pushed)
    (hsubmitted : t.submitted = e :: (s.rank r).submitted) :
    Effect net r s (s.setRank r t) := by
  have hcarrying : (s.rank r).pc.carrying = none := by rw [hpc]; rfl
  have hcollected : (s.rank r).pc.collected = true := by rw [hpc]; rfl
  have hcollected' : t.pc.collected = true := by rw [hpc', hcollected]
  have hperm := Selection.cons_eraseP_perm hx
  have hsub : ((s.rank r).localTransitingResults.eraseP (ofKey r)).Sublist
      (s.rank r).localTransitingResults := List.eraseP_sublist
  have hrem := remaining_of_carrying hcarrying
  have hrem' : remaining t = (s.rank r).localTransitingResults.eraseP (ofKey r) := by
    rw [remaining_of_carrying (by rw [hpc', hcarrying]), htransit]
  have htmp' : elements (s.segment r) t .tmp = elements (s.segment r) (s.rank r) .tmp := by
    simp only [elements, hpc', htmp]
  refine .within_setRank hpushed (fun e' => ?_) fun e' k he' => ?_
  · have h1 := count_entries (m := s.segment r) (t := t)
      (fun hc => by rw [hcollected'] at hc; cases hc) e'
    have h2 := count_entries (m := s.segment r) (t := s.rank r)
      (fun hc => by rw [hcollected] at hc; cases hc) e'
    have h3 := count_mapped_perm (s.segment r).area hperm e'
    rw [mapped, List.filterMap_cons_some he.elt, ← mapped, List.count_cons] at h3
    simp only [hcollected, hcollected', if_true, hrem, hrem'] at h1 h2
    rw [State.pair, held_eq, held_eq, htmp', hsubmitted, List.count_cons]
    omega
  · cases k with
    | tmp => exact .inl (htmp' ▸ he')
    | submitted =>
      change e' ∈ t.submitted at he'
      rw [hsubmitted] at he'
      rcases List.mem_cons.mp he' with rfl | he'
      · refine .inr ⟨.slot, ?_, by rw [← howner]; exact .submit⟩
        simp only [elements, hcollected, if_true, hrem]
        refine List.mem_filterMap.mpr ⟨x, List.mem_of_find?_eq_some hx, ?_⟩
        have helt := he.elt
        simp only [Transit.elt, hspot] at helt
        simpa only [Transit.onSegment, hspot] using helt
      · exact .inl he'
    | slot =>
      refine .inl ?_
      simp only [elements, hcollected, hcollected', if_true, hrem, hrem'] at he' ⊢
      exact (hsub.filterMap _).subset he'
    | transiting =>
      refine .inl ?_
      simp only [elements, hrem, hrem'] at he' ⊢
      exact (hsub.filterMap _).subset he'

/-- A slot is reserved for the element of the tmp segment. -/
theorem ResultsOk.effect_addHead_tmp (h : ResultsOk net s) {p : Push n} {res : Reservation n}
    (hpc : (s.rank r).pc = .addingHead p res) (hsite : p.site = .tmp) :
    Effect net r s ((s.setSegment p.target { s.segment p.target with
      bufferHead := (s.segment p.target).bufferHead + toReserve res.elts
      reserved := (s.segment p.target).reserved ++ Tiling.layOut BufferElt.bufferEntrySize
        (s.segment p.target).bufferHead res.elts }).setRank r
      { s.rank r with pc := .addingCount p res }) := by
  have hr := h.rank r
  have hp := hr.push p (by rw [hpc]; rfl)
  have hne := hr.nonempty p res (.inl hpc)
  have hsel := hr.selected p res (by rw [hpc]; rfl)
  obtain ⟨site, target⟩ := p
  cases hsite
  obtain ⟨hsome, rfl⟩ := hp
  obtain ⟨e, he⟩ := Option.isSome_iff_exists.mp hsome
  have helts : res.elts = [e] := by
    have hsub := Selection.pick_sublist res.selected (offered (s.segment target).area
      (s.rank target) ⟨.tmp, target⟩)
    rw [← hsel] at hsub
    simp only [offered, he, Option.toList_some] at hsub
    exact (List.sublist_singleton.mp hsub).resolve_left hne
  refine .within (by rfl) (fun hvr => absurd rfl hvr) (fun e' => ?_) fun e' k he' => ?_
  · rw [Function.update_self, State.pair, held_eq, held_eq]
    simp only [elements, remaining, ResultPc.collected, ResultPc.carrying, hpc, helts, he,
      List.cons_ne_self, reduceCtorEq, if_false, decide_false, Bool.false_eq_true,
      List.map_append, Tiling.map_layOut, List.count_append, Option.toList_some, List.count_nil]
    omega
  · rw [Function.update_self] at he'
    cases k with
    | tmp =>
      simp only [elements, ResultPc.carrying, helts, reduceCtorEq, if_false] at he'
      cases he'
    | submitted => exact .inl he'
    | slot =>
      simp only [elements, ResultPc.collected, reduceCtorEq, decide_false, Bool.false_eq_true,
        if_false, List.map_append, Tiling.map_layOut, helts, List.mem_append,
        List.mem_singleton] at he'
      rcases he' with he' | rfl
      · refine .inl ?_
        simpa only [elements, hpc, ResultPc.collected, reduceCtorEq, decide_false,
          Bool.false_eq_true, if_false] using he'
      · refine .inr ⟨.tmp, ?_, .reserve _⟩
        rw [elements_tmp_of_carrying (by rw [hpc]; rfl), he]
        exact List.mem_singleton.mpr rfl
    | transiting =>
      refine .inl ?_
      simpa only [elements, remaining, hpc, ResultPc.carrying, helts, reduceCtorEq, if_false]
        using he'

/-- Slots are reserved for the elements of entries. -/
theorem ResultsOk.effect_addHead_entries (h : ResultsOk net s) {p : Push n} {res : Reservation n}
    (hpc : (s.rank r).pc = .addingHead p res) (hsite : p.site ≠ .tmp) :
    Effect net r s ((s.setSegment p.target { s.segment p.target with
      bufferHead := (s.segment p.target).bufferHead + toReserve res.elts
      reserved := (s.segment p.target).reserved ++ Tiling.layOut BufferElt.bufferEntrySize
        (s.segment p.target).bufferHead res.elts }).setRank r
      { s.rank r with pc := .addingCount p res }) := by
  have hr := h.rank r
  have hne := hr.nonempty p res (.inl hpc)
  have hvr := hr.target_ne (p := p) (by rw [hpc]; rfl) hsite
  have hcarrying : (s.rank r).pc.carrying = none := by rw [hpc]; rfl
  have hcarrying' : (ResultPc.addingCount p res).carrying = some (p, res) := if_neg hne
  have hcollected : (ResultPc.addingCount p res).collected = (s.rank r).pc.collected := by
    rw [hpc]
    rfl
  have hrem := remaining_of_carrying hcarrying
  obtain ⟨sent, hsent, hperm, hkey⟩ := hr.sent (by rw [hpc]; rfl) hsite hne hcarrying'
  generalize hafter : remaining { s.rank r with pc := .addingCount p res } = after at hperm
  have hsub : after ⊆ (s.rank r).localTransitingResults :=
    fun x hx => hperm.subset (List.mem_append_right _ hx)
  -- the lock keeps the target from flushing
  have htarget : (s.rank p.target).pc.collected = false := by
    refine not_collected_of_not_flushing (Bool.eq_false_of_not_eq_true fun hfl => ?_)
    have h1 := (h.locks.flush p.target).mpr hfl
    have h2 := (h.locks.lock p.target r).mpr (by rw [hpc]; rfl)
    rw [h1] at h2
    cases h2
  have htmp : elements (s.segment r) { s.rank r with pc := .addingCount p res } .tmp =
      elements (s.segment r) (s.rank r) .tmp := by
    rw [elements_tmp_of_carrying hcarrying, elements_tmp_of_site hcarrying' hsite]
  have hspot : (s.rank r).pc.collected = false →
      ∀ x ∈ (s.rank r).localTransitingResults, ∀ off, x.spot ≠ .onSegment off :=
    fun hc x hx off => hr.inMemory (cursor_of_not_collected hc) hx off
  refine .across hvr (by rfl) (fun e => ?_) (fun e k he => ?_) fun e k he => ?_
  · have h1 := count_entries (m := s.segment r) (t := s.rank r)
      (fun hc x hx => hspot hc x (hrem ▸ hx)) e
    have h2 := count_entries (m := s.segment r) (t := { s.rank r with pc := .addingCount p res })
      (fun hc x hx => hspot (hcollected ▸ hc) x (hsub (hafter ▸ hx))) e
    have h3 := count_mapped_perm (s.segment r).area hperm e
    rw [mapped, List.filterMap_append, List.count_append] at h3
    change (mapped _ _).count e + (mapped _ _).count e = _ at h3
    rw [hsent] at h3
    rw [hrem] at h1
    rw [hafter] at h2
    simp only [hcollected] at h2
    rw [State.pair, State.pair, held_eq, held_eq, held_eq, held_eq, htmp]
    simp only [elements, htarget, Bool.false_eq_true, if_false, List.map_append, Tiling.map_layOut,
      List.count_append] at h1 h2 ⊢
    omega
  · cases k with
    | tmp => exact htmp ▸ he
    | submitted => exact he
    | slot =>
      simp only [elements, hcollected, hafter, hrem] at he ⊢
      split at he
      · rename_i hc
        rw [if_pos hc]
        exact List.filterMap_subset _ hsub he
      · rename_i hc
        rwa [if_neg hc]
    | transiting =>
      simp only [elements, hafter, hrem] at he ⊢
      exact List.filterMap_subset _ hsub he
  · cases k with
    | tmp | submitted | transiting => exact .inl he
    | slot =>
      simp only [elements, htarget, Bool.false_eq_true, if_false, List.map_append,
        Tiling.map_layOut, List.mem_append] at he ⊢
      refine he.imp_right fun he => ?_
      rw [← hsent] at he
      obtain ⟨x, hx, hxe⟩ := List.mem_filterMap.mp he
      have hmem := hperm.subset (List.mem_append_left after hx)
      obtain ⟨e', he'⟩ := hr.entries x hmem
      have heq : e' = e := Option.some.inj (he'.elt.symm.trans hxe)
      subst heq
      have howner := he'.owner_ne ((hkey x hx).trans_ne hvr)
      have hhop : p.target = net.selectNextHopTo r e'.owner := by
        rw [← hkey x hx, he'.key, keyOf, if_pos howner]
      rw [hhop]
      rcases hr.mem_elements hcarrying hmem hxe with hslot | htransit
      · exact ⟨.slot, hslot, .forward r howner⟩
      · exact ⟨.transiting, htransit, .forwardTransiting r howner⟩

/-- A push of rank `r` posts its message and ends. -/
theorem ResultsOk.effect_post (h : ResultsOk net s) {p : Push n} {res : Reservation n}
    (hpc : (s.rank r).pc = .posting p res) :
    Effect net r s ((s.setSegment p.target (post (s.segment p.target) (s.rank r) p res)).setRank r
      (settle (s.segment r) (s.rank r) p res)) := by
  have hr := h.rank r
  have hp := hr.push p (by rw [hpc]; rfl)
  have hne := hr.nonempty p res (.inr (.inr hpc))
  have hcarrying : (s.rank r).pc.carrying = some (p, res) := by
    rw [hpc]
    exact if_neg hne
  have harea : p.site ≠ .tmp →
      (post (s.segment p.target) (s.rank r) p res).area = (s.segment p.target).area := by
    intro hsite
    simp only [Results.post]
    split
    · exact absurd ‹_› hsite
    · rfl
  rcases hr.settle p res with ⟨hsite, heq⟩ | ⟨i, hsite, heq⟩ | ⟨hsite, heq⟩ <;> rw [heq]
  · simp only [PushOk, hsite] at hp
    obtain ⟨site, target⟩ := p
    cases hsite
    obtain ⟨-, rfl⟩ := hp
    refine .still (by rfl) (fun k => ?_) fun hvr => absurd rfl hvr
    rw [Function.update_self]
    refine elements_congr ?_ (by rfl) (by rw [hpc]; rfl) ?_ (by rfl) (.inr (by rw [hpc]; rfl)) k
    · rw [elements_tmp_of_carrying (by rfl)]
      simp only [elements, hcarrying, Option.toList_none]
    · rw [remaining_of_carrying (by rfl)]
      simp only [remaining, hcarrying]
  · have hsite' : p.site ≠ .tmp := by rw [hsite]; rintro ⟨⟩
    have hvr := hr.target_ne (p := p) (by rw [hpc]; rfl) hsite'
    have hcollected : (s.rank r).pc.collected = false := by
      rw [hpc]
      simp [ResultPc.collected, hsite]
    refine .still (by rfl) (fun k => ?_) fun _ => elements_setSegment (by rfl) (.inl (harea hsite'))
    rw [Function.update_of_ne hvr.symm]
    refine elements_congr ?_ (by rfl) (by exact hcollected.symm) ?_ rfl (.inl rfl) k
    · rw [elements_tmp_of_site hcarrying hsite', elements_tmp_of_carrying (by rfl)]
    · rw [remaining_of_carrying (by rfl)]
      simp only [remaining, hcarrying, hsite]
  · have hsite' : p.site ≠ .tmp := by rw [hsite]; rintro ⟨⟩
    refine h.effect_settled (hr.target_ne (by rw [hpc]; rfl) hsite') ?_ ?_
      (elements_tmp_of_site hcarrying hsite') (by rfl) (harea hsite')
    · rw [hpc]
      simp [ResultPc.collected, hsite]
    · simp only [remaining, hcarrying, hsite]

/-- A new batch on rank `r`, which goes to the place `k`. -/
theorem Effect.pushed {e : BufferElt n} {k : Kind} (hk : k = .tmp ∨ k = .submitted ∧ e.owner = r)
    (hproducer : e.batch.producer = r) (hseq : e.batch.seq = (s.rank r).pushed.length)
    (hpushed : t.pushed = e :: (s.rank r).pushed)
    (hplace : elements (s.segment r) t k = e :: elements (s.segment r) (s.rank r) k)
    (hother : ∀ k', k' ≠ k → elements (s.segment r) t k' = elements (s.segment r) (s.rank r) k') :
    Effect net r s (s.setRank r t) := by
  refine .push e k hk hproducer hseq (fun q => ?_) fun e' p => ?_
  · by_cases hq : q = r
    · subst hq
      rw [State.rank_setRank, Function.update_self, if_pos rfl, hpushed]
    · rw [State.rank_setRank, Function.update_of_ne hq, if_neg hq]
  · obtain ⟨k', q⟩ := p
    simp only [copiesAt, State.segment_setRank, State.rank_setRank]
    by_cases hq : q = r
    · subst hq
      rw [Function.update_self]
      by_cases hk' : k' = k
      · subst hk'
        rw [hplace, List.count_cons]
        simp only [beq_iff_eq, true_and]
      · rw [hother k' hk', if_neg (fun heq => hk' (Prod.ext_iff.mp heq.1).1), Nat.add_zero]
    · rw [Function.update_of_ne hq, if_neg (fun heq => hq (Prod.ext_iff.mp heq.1).2), Nat.add_zero]

/-- Every step takes a new batch or moves elements. -/
theorem ResultsOk.effect (h : ResultsOk net s) (hs : Stepped net s r a s') :
    Effect net r s s' := by
  have hr := h.rank r
  have hseg := h.segment r
  cases hs with
  | spin => exact .quiet (fun _ => rfl) fun _ _ => rfl
  | pushOwn k id nb size owner data e he hsound hpc htmp howner =>
    have hcarrying : (s.rank r).pc.carrying = none := by rw [hpc]; rfl
    refine .pushed (k := .submitted) (.inr ⟨rfl, howner⟩) (by rw [he]; rfl) (by rw [he]; rfl)
      (by rfl) (by rfl) fun k' hk' => ?_
    cases k' with
    | submitted => exact absurd rfl hk'
    | tmp | slot | transiting => rfl
  | pushTmp k id nb size owner data e he hsound hpc htmp howner =>
    have hcarrying : (s.rank r).pc.carrying = none := by rw [hpc]; rfl
    refine .pushed (e := e) (k := .tmp) (.inl rfl) (by rw [he]; rfl) (by rw [he]; rfl) (by rfl) ?_
      fun k' hk' => ?_
    · rw [elements_tmp_of_carrying hcarrying, elements_tmp_of_carrying (by exact hcarrying), htmp]
      rfl
    · cases k' with
      | tmp => exact absurd rfl hk'
      | submitted | slot | transiting => rfl
  | flush hpc | pushTransit _ _ _ hpc | startTmp hpc | empty hpc | occupied hpc | bounded hpc
  | waited _ hpc | group _ _ hpc | grouped _ hpc =>
    refine .still_setRank (by rfl) fun k => ?_
    exact elements_setPc (by rw [hpc]; rfl) (by rw [hpc]; rfl) rfl (.inl rfl) k
  | lockOwn hpc | consume _ hpc =>
    refine .still (by rfl) (fun k => ?_) fun hvr => absurd rfl hvr
    rw [Function.update_self]
    exact elements_setPc (by rw [hpc]; rfl) (by rw [hpc]; rfl) rfl (.inl rfl) k
  | unlockOwn hpc =>
    refine .still (by rfl) (fun k => ?_) fun hvr => absurd rfl hvr
    rw [Function.update_self]
    exact elements_setPc (by rw [hpc]; rfl) (by rw [hpc]; rfl) rfl (.inl rfl) k
  | collect hpc =>
    exact .still_setRank (by rfl) fun k => hr.elements_collect hseg hpc k
  | submit c off x e hpc hx hspot he howner =>
    exact ResultsOk.effect_submit hpc hx hspot he howner rfl rfl rfl rfl rfl
  | purge hpc =>
    have hcarrying : (s.rank r).pc.carrying = none := by rw [hpc]; rfl
    refine .still (by rfl) (fun k => ?_) fun hvr => absurd rfl hvr
    rw [Function.update_self]
    cases k with
    | tmp =>
      rw [elements_tmp_of_carrying hcarrying]
      rfl
    | submitted => rfl
    | transiting => simp only [elements, remaining, hpc, ResultPc.carrying]
    | slot =>
      have hold := hr.onSegment_eq_nil (by rw [hpc]; rfl)
      simp only [elements, hpc, ResultPc.collected, if_true, remaining, ResultPc.carrying, hold,
        Bool.false_eq_true, if_false, Results.purge, List.map_nil]
  | lockFailed p hpc =>
    have := h.effect_giveUp (v := r) (m := s.segment r) (p := p) (by rw [hpc]; rfl)
      (by rw [hpc]; rfl) (Selection.pick_nil _) rfl rfl
    rwa [State.setSegment_self] at this
  | lockTaken p hpc hst =>
    refine .still (by rfl) (fun k => ?_) fun _ => elements_setSegment rfl (.inl rfl)
    refine elements_setPc (by rw [hpc]; rfl) (by rw [hpc]; rfl) ?_ (.inl ?_) k <;>
      by_cases hrv : r = p.target <;> simp [hrv, Function.update_of_ne]
  | select p res hpc =>
    refine .still_setRank (by rfl) fun k => ?_
    by_cases h0 : res.elts.length = 0
    · simp only [h0, if_true]
      refine elements_setPc ?_ (by rw [hpc]; rfl) rfl (.inl rfl) k
      rw [hpc]
      exact if_pos (List.length_eq_zero_iff.mp h0)
    · simp only [h0, if_false]
      exact elements_setPc (by rw [hpc]; rfl) (by rw [hpc]; rfl) rfl (.inl rfl) k
  | addHead p res hpc =>
    by_cases hsite : p.site = .tmp
    · exact h.effect_addHead_tmp hpc hsite
    · exact h.effect_addHead_entries hpc hsite
  | addCount p res hpc =>
    refine .still (by rfl) (fun k => ?_) fun _ => elements_setSegment rfl (.inl rfl)
    refine elements_setPc (by rw [hpc]; rfl) (by rw [hpc]; rfl) ?_ (.inl ?_) k <;>
      by_cases hrv : r = p.target <;> simp [hrv, Function.update_of_ne]
  | releaseEmpty p res hpc helts =>
    refine h.effect_giveUp (by rw [hpc]; rfl) ?_ ?_ (by rfl) (by rfl)
    · rw [hpc]
      exact if_pos helts
    · rw [← hr.selected p res (by rw [hpc]; rfl), helts]
  | release p res hpc helts =>
    refine .still (by rfl) (fun k => ?_) fun _ => elements_setSegment rfl (.inl rfl)
    refine elements_setPc (by rw [hpc]; rfl) (by rw [hpc]; rfl) ?_ (.inl ?_) k <;>
      by_cases hrv : r = p.target <;> simp [hrv, Function.update_of_ne]
  | post p res hpc => exact h.effect_post hpc
  | land i w off b e hb hw =>
    refine .quiet (fun _ => rfl) (at_arrival fun k => elements_setSegment (by rfl) (.inr ?_) k)
    have := hseg.not_drained (.inl (List.mem_of_getElem? hb))
    exact Bool.eq_false_of_not_eq_true fun hc => this (drained_of_collected hc)
  | deliver i b hb hw =>
    exact .quiet (fun _ => rfl) (at_arrival fun k => elements_setSegment (by rfl) (.inl (by rfl)) k)

end Stepped

end Titus.Results
