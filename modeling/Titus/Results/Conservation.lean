import Titus.Results.Effect

/-! Conservation of results: every batch of results given to `push_tmp_results` is in exactly one
place, and is submitted by its owner at most once. -/

namespace Titus.Results

variable {n : ℕ} {net : Network n} {r : Fin n} {s s' : State n} {a : Action n}

/-! ### Counting -/

/-- An element in this place keeps to its producer or its owner. -/
def Legal (e : BufferElt n) (p : Place n) : Prop :=
  match p.1 with
  | .tmp => e.batch.producer = p.2
  | .submitted => e.owner = p.2
  | _ => True

/-- Every batch pushed has one copy in all, and nothing else has any. -/
structure Conserved (s : State n) : Prop where
  total : ∀ e, ∑ p, copiesAt s e p = ∑ r, (s.rank r).pushed.count e
  legal : ∀ e p, 0 < copiesAt s e p → Legal e p
  producer : ∀ r, ∀ e ∈ (s.rank r).pushed, e.batch.producer = r
  seq : ∀ r, ∀ e ∈ (s.rank r).pushed, e.batch.seq < (s.rank r).pushed.length
  fresh : ∀ r, (s.rank r).pushed.Pairwise fun e e' => e'.batch.seq < e.batch.seq

theorem Move.legal {e : BufferElt n} {p p' : Place n} (h : Move net e p p') : Legal e p' := by
  cases h with
  | submit => rfl
  | reserve | forward | forwardTransiting | putAside => trivial

/-- Every step keeps the totals. -/
theorem Conserved.step (hc : Conserved s) (h : Effect net r s s') : Conserved s' := by
  cases h with
  | move hpushed htotal hmove =>
    refine ⟨fun e => ?_, fun e p hp => ?_, fun q => ?_, fun q => ?_, fun q => ?_⟩
    · rw [htotal, hc.total]
      simp only [hpushed]
    · rcases hmove e p hp with hp | ⟨p', -, hmv⟩
      · exact hc.legal e p hp
      · exact hmv.legal
    · rw [hpushed]
      exact hc.producer q
    · rw [hpushed]
      exact hc.seq q
    · rw [hpushed]
      exact hc.fresh q
  | push e₀ k hk hproducer hseq hpushed hcopies =>
    refine ⟨fun e => ?_, fun e p hp => ?_, fun q => ?_, fun q => ?_, fun q => ?_⟩
    · have hplaces : ∑ p : Place n, (if p = (k, r) ∧ e₀ = e then 1 else 0) =
          if e₀ = e then 1 else 0 := by
        by_cases he : e₀ = e <;> simp [he]
      have hranks : ∀ q, (s'.rank q).pushed.count e =
          (s.rank q).pushed.count e + if q = r ∧ e₀ = e then 1 else 0 := by
        intro q
        rw [hpushed]
        by_cases hq : q = r
        · simp only [hq, if_true, List.count_cons, beq_iff_eq, true_and]
        · simp only [hq, if_false, false_and, Nat.add_zero]
      have hsum : ∑ q : Fin n, (if q = r ∧ e₀ = e then 1 else 0) = if e₀ = e then 1 else 0 := by
        by_cases he : e₀ = e <;> simp [he]
      simp only [hcopies, hranks, Finset.sum_add_distrib, hc.total, hplaces, hsum]
    · rw [hcopies] at hp
      split at hp
      · rename_i heq
        obtain ⟨rfl, rfl⟩ := heq
        rcases hk with rfl | ⟨rfl, howner⟩
        · exact hproducer
        · exact howner
      · exact hc.legal e p hp
    · rw [hpushed]
      split
      · rename_i hq
        subst hq
        exact List.forall_mem_cons.mpr ⟨hproducer, hc.producer q⟩
      · exact hc.producer q
    · rw [hpushed]
      split
      · rename_i hq
        subst hq
        refine List.forall_mem_cons.mpr ⟨?_, fun e he => ?_⟩
        · rw [hseq]
          exact Nat.lt_succ_self _
        · exact (hc.seq q e he).trans (Nat.lt_succ_self _)
      · exact hc.seq q
    · rw [hpushed]
      split
      · rename_i hq
        subst hq
        refine List.pairwise_cons.mpr ⟨fun e he => ?_, hc.fresh q⟩
        rw [hseq]
        exact hc.seq q e he
      · exact hc.fresh q

theorem Conserved.init (h : (system net).init s) : Conserved s := by
  obtain ⟨hseg, hrank⟩ := h
  have hpushed : ∀ q, (s.rank q).pushed = [] := fun q => (hrank q).pushed
  have hnone : ∀ (p : Place n) e, e ∉ elements (s.segment p.2) (s.rank p.2) p.1 := by
    rintro ⟨k, q⟩ e
    have hq := hrank q
    cases k with
    | tmp => simp [elements, hq.pc, ResultPc.carrying, hq.tmp]
    | submitted => simp [elements, hq.submitted]
    | slot => simp [elements, hq.pc, ResultPc.collected, (hseg q).reserved]
    | transiting => simp [elements, remaining, hq.pc, ResultPc.carrying, hq.transit]
  refine ⟨fun e => ?_, fun e p hp => absurd (copiesAt_pos.mp hp) (hnone p e), fun q => ?_,
    fun q => ?_, fun q => ?_⟩
  · have hzero : ∀ p, copiesAt s e p = 0 := fun p => List.count_eq_zero.mpr (hnone p e)
    simp only [hzero, hpushed, List.count_nil, Finset.sum_const_zero]
  · rw [hpushed]
    rintro _ ⟨⟩
  · rw [hpushed]
    rintro _ ⟨⟩
  · rw [hpushed]
    exact .nil

theorem conserved_invariant (net : Network n) : (system net).Invariant Conserved :=
  (results_invariant net).of_step (fun _ => Conserved.init)
    fun _ _ _ h hc hs => hc.step (h.effect (h.stepped hs))

/-! ### The one place of a batch -/

/-- The element `e` is in this place. -/
def At (s : State n) (e : BufferElt n) (p : Place n) : Prop :=
  e ∈ elements (s.segment p.2) (s.rank p.2) p.1

section Places

variable {e e' : BufferElt n} {p p' : Place n}

theorem at_iff : At s e p ↔ 0 < copiesAt s e p := copiesAt_pos.symm

theorem Conserved.nodup (hc : Conserved s) (r : Fin n) : (s.rank r).pushed.Nodup :=
  (hc.fresh r).imp fun hlt heq => by
    subst heq
    exact lt_irrefl _ hlt

/-- No two batches are the same. -/
theorem Conserved.eq_of_batch (hc : Conserved s) (h : Pushed s e) (h' : Pushed s e')
    (hbatch : e.batch = e'.batch) : e = e' := by
  obtain ⟨q, hq⟩ := h
  obtain ⟨q', hq'⟩ := h'
  have hqq : q = q' := by
    rw [← hc.producer q e hq, ← hc.producer q' e' hq', hbatch]
  subst hqq
  obtain ⟨i, hi, rfl⟩ := List.getElem_of_mem hq
  obtain ⟨j, hj, rfl⟩ := List.getElem_of_mem hq'
  have hfresh := List.pairwise_iff_getElem.mp (hc.fresh q)
  rcases lt_trichotomy i j with hij | rfl | hij
  · have := hfresh i j hi hj hij
    rw [hbatch] at this
    exact absurd this (lt_irrefl _)
  · rfl
  · have := hfresh j i hj hi hij
    rw [hbatch] at this
    exact absurd this (lt_irrefl _)

theorem Conserved.sum_pushed (hc : Conserved s) (h : Pushed s e) : ∑ p, copiesAt s e p = 1 := by
  obtain ⟨q, hq⟩ := h
  rw [hc.total, Ledger.sum_eq_one_iff]
  refine ⟨q, List.count_eq_one_of_mem (hc.nodup q) hq, fun q' hne => ?_⟩
  refine List.count_eq_zero.mpr fun hq' => hne ?_
  rw [← hc.producer q e hq, ← hc.producer q' e hq']

theorem Conserved.sum_rest (hc : Conserved s) (h : ¬ Pushed s e) : ∑ p, copiesAt s e p = 0 := by
  rw [hc.total]
  exact Finset.sum_eq_zero fun q _ => List.count_eq_zero.mpr fun hq => h ⟨q, hq⟩

theorem Conserved.pushed_of_at (hc : Conserved s) (h : At s e p) : Pushed s e := by
  by_contra hno
  have hzero := Finset.sum_eq_zero_iff.mp (hc.sum_rest hno) p (Finset.mem_univ p)
  have := at_iff.mp h
  omega

theorem Conserved.copiesAt_le_one (hc : Conserved s) (e : BufferElt n) (p : Place n) :
    copiesAt s e p ≤ 1 := by
  by_cases h : Pushed s e
  · rw [← hc.sum_pushed h]
    exact Finset.single_le_sum (fun _ _ => Nat.zero_le _) (Finset.mem_univ p)
  · rw [Finset.sum_eq_zero_iff.mp (hc.sum_rest h) p (Finset.mem_univ p)]
    exact Nat.zero_le _

theorem Conserved.existsUnique_at (hc : Conserved s) (h : Pushed s e) : ∃! p, At s e p := by
  obtain ⟨p, hp, hrest⟩ := Ledger.sum_eq_one_iff.mp (hc.sum_pushed h)
  refine ⟨p, at_iff.mpr (by omega), fun q hq => ?_⟩
  by_contra hne
  have := at_iff.mp hq
  rw [hrest q hne] at this
  exact lt_irrefl _ this

/-- An element that is in two places, one before and one after a step, has moved there. -/
theorem Conserved.moved (hc : Conserved s) (h : Effect net r s s') (hp : At s e p)
    (hp' : At s' e p') : p = p' ∨ Move net e p p' := by
  have hpushed := hc.pushed_of_at hp
  cases h with
  | push e₀ k hk hproducer hseq hnew hcopies =>
    have hne : e₀ ≠ e := by
      rintro rfl
      obtain ⟨q, hq⟩ := hpushed
      have hqr : q = r := (hc.producer q _ hq).symm.trans hproducer
      subst hqr
      have := hc.seq q _ hq
      omega
    refine .inl ((hc.existsUnique_at hpushed).unique hp (at_iff.mpr ?_))
    have := at_iff.mp hp'
    rwa [hcopies, if_neg (fun heq => hne heq.2), Nat.add_zero] at this
  | move hnew htotal hmove =>
    rcases hmove e p' (at_iff.mp hp') with hold | ⟨q, hq, hmv⟩
    · exact .inl ((hc.existsUnique_at hpushed).unique hp (at_iff.mpr hold))
    · rw [(hc.existsUnique_at hpushed).unique hp (at_iff.mpr hq)]
      exact .inr hmv

end Places

/-- What conservation says of state `s`. -/
structure ResultsConserved (net : Network n) (s : State n) : Prop where
  /-- No two batches are the same, -/
  ids : ∀ e e', Pushed s e → Pushed s e' → e.batch = e'.batch → e = e'
  /-- a batch is in exactly one place, -/
  place : ∀ e, Pushed s e → ∃! p, At s e p
  /-- where it is once, -/
  once : ∀ e p, copiesAt s e p ≤ 1
  /-- and nothing else is anywhere. -/
  only : ∀ e p, At s e p → Pushed s e
  /-- Only its producer has it in the tmp segment, -/
  tmp : ∀ e r, At s e (.tmp, r) → e.batch.producer = r
  /-- and only its owner submits it. -/
  submitted : ∀ e r, At s e (.submitted, r) → e.owner = r
  /-- The element that a slot was reserved for is there, or in a write on its way there, -/
  slot : ∀ v, ∀ w ∈ (s.segment v).reserved, (s.segment v).area w.1 = some w.2 ∨
    ∃ b, Announcement.Pending (s.segment v).inbox (carriedTo s v) b ∧ w ∈ b.writes
  /-- every entry of `local_transiting_results` has an element, -/
  entry : ∀ r, ∀ x ∈ (s.rank r).localTransitingResults, ∃ e, x.elt (s.segment r).area = some e
  /-- and a purge finds no element on the segment that is not sent, put aside or submitted. -/
  purged : ∀ r e, (s.rank r).pc = .purging → ¬ At s e (.slot, r)
  /-- A step drops no batch, -/
  kept : ∀ r a s', next net s (r, a) = some s' → ∀ e, Pushed s e → Pushed s' e
  /-- and moves one only from the tmp segment to a slot, to a slot at the next hop, aside, or from a
  slot of its owner to `submit_results`. -/
  moved : ∀ r a s', next net s (r, a) = some s' → ∀ e p p', At s e p → At s' e p' →
    p = p' ∨ Move net e p p'

/-- In every reachable state of any number of ranks results are conserved. -/
theorem results_conserved {s : State n} (hr : (system net).Reachable s) :
    ResultsConserved net s := by
  have h := (results_invariant net).holds hr
  have hc := (conserved_invariant net).holds hr
  refine ⟨fun e e' => hc.eq_of_batch, fun e => hc.existsUnique_at, hc.copiesAt_le_one,
    fun e p => hc.pushed_of_at, fun e r he => hc.legal e _ (at_iff.mp he),
    fun e r he => hc.legal e _ (at_iff.mp he), fun v w hw => ?_, fun r x hx => ?_,
    fun r e hpc he => ?_, fun r a s' hs e he => ?_,
    fun r a s' hs e p p' => hc.moved (h.effect (h.stepped hs))⟩
  · obtain ⟨j, hj, rfl⟩ := List.getElem_of_mem hw
    refine ((h.segment v).delivery.filled j _ (List.getElem?_eq_getElem hj)).imp_right ?_
    rintro ⟨b, hb, -, hmem⟩
    exact ⟨b, hb, hmem⟩
  · obtain ⟨e, he⟩ := (h.rank r).entries x hx
    exact ⟨e, he.elt⟩
  · have hnil := (h.rank r).onSegment_eq_nil (by rw [hpc]; rfl)
    simp only [At, elements, hpc, ResultPc.collected, if_true, remaining, ResultPc.carrying,
      hnil] at he
    cases he
  · obtain ⟨q, hq⟩ := he
    refine ⟨q, ?_⟩
    cases h.effect (h.stepped hs) with
    | move hpushed => rwa [hpushed]
    | push e₀ k hk hproducer hseq hpushed =>
      rw [hpushed]
      split
      · exact List.mem_cons_of_mem _ hq
      · exact hq

/-- Rank 0 reserves a slot on the segment of rank 1 for results of rank 1. -/
def reserveRemote : List (Fin 2 × Action 2) :=
  reserveAndWait ++ List.replicate 6 (0, .advance)

theorem results_conserved_in_flush :
    ∃ s, (system (direct 2)).Reachable s ∧
      At s ⟨4, 3, 3, 1, [7, 8, 9], ⟨0, 0, 0⟩⟩ (.slot, 1) ∧ ResultsConserved (direct 2) s := by
  obtain ⟨s, hr, hat⟩ := Transition.System.exists_reachable constructed_init reserveRemote
    (fun s => copiesAt s ⟨4, 3, 3, 1, [7, 8, 9], ⟨0, 0, 0⟩⟩ (.slot, 1) = 1) (by decide +kernel)
  exact ⟨s, hr, at_iff.mpr (by omega), results_conserved hr⟩

end Titus.Results
