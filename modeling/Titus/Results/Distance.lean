import Mathlib
import Titus.Results.Settling

/-! How far the results are from their owners, when every hop brings an element closer to its owner.
Every move of an element lowers its distance, so that no step leads the elements further away but a
call of `push_tmp_results`. -/

namespace Titus.Results

variable {n : ℕ} {net : Network n} {dist : Fin n → Fin n → ℕ} {r q : Fin n} {s s' : State n}
  {e : BufferElt n} {p p' : Place n}

/-- The next hop to an owner is closer to it. -/
def Routes (net : Network n) (dist : Fin n → Fin n → ℕ) : Prop :=
  ∀ r owner, owner ≠ r → dist (net.selectNextHopTo r owner) owner < dist r owner

/-- The moves that an element in this place has ahead of it, at most. -/
def weight (dist : Fin n → Fin n → ℕ) (e : BufferElt n) : Place n → ℕ
  | (.tmp, r) => 2 * dist r e.owner + 2
  | (.slot, r) => 2 * dist r e.owner + 1
  | (.transiting, r) => 2 * dist r e.owner
  | (.submitted, _) => 0

theorem Move.weight_lt (hd : Routes net dist) (h : Move net e p p') :
    weight dist e p' < weight dist e p := by
  cases h with
  | reserve r => simp [weight]
  | forward r hne =>
    have := hd r e.owner hne
    simp only [weight]
    omega
  | forwardTransiting r hne =>
    have := hd r e.owner hne
    simp only [weight]
    omega
  | putAside r hne => simp [weight]
  | submit => simp [weight]

/-- A bound of all distances. -/
def maxDist (dist : Fin n → Fin n → ℕ) : ℕ :=
  Finset.univ.sup fun r => Finset.univ.sup fun owner => dist r owner

theorem weight_le (dist : Fin n → Fin n → ℕ) (e : BufferElt n) (p : Place n) :
    weight dist e p ≤ 2 * maxDist dist + 2 := by
  obtain ⟨k, r⟩ := p
  have hle : dist r e.owner ≤ maxDist dist :=
    calc dist r e.owner ≤ Finset.univ.sup fun owner => dist r owner :=
          Finset.le_sup (Finset.mem_univ e.owner)
      _ ≤ maxDist dist :=
          Finset.le_sup (f := fun r => Finset.univ.sup fun owner => dist r owner)
            (Finset.mem_univ r)
  cases k <;> simp only [weight] <;> omega

/-- The moves that element `e` has ahead of it, at most. -/
def ahead (dist : Fin n → Fin n → ℕ) (s : State n) (e : BufferElt n) : ℕ :=
  ∑ p, copiesAt s e p * weight dist e p

/-- The moves that the elements have ahead of them together, at most. -/
def totalAhead (dist : Fin n → Fin n → ℕ) (s : State n) : ℕ :=
  ∑ q, ((s.rank q).pushed.map (ahead dist s)).sum

theorem Conserved.ahead_eq (hc : Conserved s) (h : At s e p) :
    ahead dist s e = weight dist e p := by
  have huniq := hc.existsUnique_at (hc.pushed_of_at h)
  unfold ahead
  rw [Finset.sum_eq_single p]
  · have hpos := at_iff.mp h
    have hle := hc.copiesAt_le_one e p
    rw [show copiesAt s e p = 1 by omega, Nat.one_mul]
  · intro p' _ hne
    have hzero : copiesAt s e p' = 0 := by
      by_contra hpos
      exact hne (huniq.unique (at_iff.mpr (Nat.pos_of_ne_zero hpos)) h)
    rw [hzero, Nat.zero_mul]
  · intro hno
    exact absurd (Finset.mem_univ p) hno

section Steps

variable (hd : Routes net dist) (hc : Conserved s) (hc' : Conserved s')

include hd hc hc'

/-- No step takes an element further away. -/
theorem ahead_le (h : Effect net r s s') (hp : Pushed s e) (hp' : Pushed s' e) :
    ahead dist s' e ≤ ahead dist s e := by
  obtain ⟨p, hat, -⟩ := hc.existsUnique_at hp
  obtain ⟨p', hat', -⟩ := hc'.existsUnique_at hp'
  rw [hc.ahead_eq hat, hc'.ahead_eq hat']
  rcases hc.moved h hat hat' with heq | hmove
  · rw [heq]
  · exact (hmove.weight_lt hd).le

/-- A step that pushes nothing moves some element closer to its owner, or moves none. -/
theorem totalAhead_of_move (h : Effect net r s s')
    (hpushed : ∀ q, (s'.rank q).pushed = (s.rank q).pushed) :
    totalAhead dist s' < totalAhead dist s ∨
      totalAhead dist s' = totalAhead dist s ∧ ∀ e p, At s e p → At s' e p := by
  have hsame : ∀ e, Pushed s e → Pushed s' e := by
    rintro e ⟨q, hq⟩
    exact ⟨q, by rwa [hpushed]⟩
  have hle : ∀ q, ∀ e ∈ (s.rank q).pushed, ahead dist s' e ≤ ahead dist s e :=
    fun q e he => ahead_le hd hc hc' h ⟨q, he⟩ (hsame e ⟨q, he⟩)
  have hsum : ∀ q ∈ Finset.univ, ((s'.rank q).pushed.map (ahead dist s')).sum ≤
      ((s.rank q).pushed.map (ahead dist s)).sum := by
    intro q _
    rw [hpushed]
    exact List.sum_le_sum (hle q)
  by_cases hstill : ∀ e p, At s e p → At s' e p
  · refine .inr ⟨?_, hstill⟩
    apply Finset.sum_congr rfl
    intro q _
    rw [hpushed]
    congr 1
    apply List.map_congr_left
    intro e he
    obtain ⟨p, hat, -⟩ := hc.existsUnique_at ⟨q, he⟩
    rw [hc.ahead_eq hat, hc'.ahead_eq (hstill e p hat)]
  · left
    simp only [not_forall] at hstill
    obtain ⟨e, p, hat, hno⟩ := hstill
    obtain ⟨q, hq⟩ := hc.pushed_of_at hat
    obtain ⟨p', hat', -⟩ := hc'.existsUnique_at (hsame e ⟨q, hq⟩)
    have hlt : ahead dist s' e < ahead dist s e := by
      rw [hc.ahead_eq hat, hc'.ahead_eq hat']
      rcases hc.moved h hat hat' with rfl | hmove
      · exact absurd hat' hno
      · exact hmove.weight_lt hd
    apply Finset.sum_lt_sum hsum
    refine ⟨q, Finset.mem_univ q, ?_⟩
    rw [hpushed]
    exact List.sum_lt_sum _ _ (hle q) ⟨e, hq, hlt⟩

/-- A step that pushes something adds that element's moves at most. -/
theorem totalAhead_le (h : Effect net r s s') :
    totalAhead dist s' ≤ totalAhead dist s + (2 * maxDist dist + 2) := by
  cases h with
  | move hpushed htotal hmove =>
    have heffect : Effect net r s s' := .move hpushed htotal hmove
    rcases totalAhead_of_move hd hc hc' heffect hpushed with hlt | ⟨heq, -⟩
    · omega
    · omega
  | push e₀ k hk hproducer hseq hpushed hcopies =>
    have heffect : Effect net r s s' := .push e₀ k hk hproducer hseq hpushed hcopies
    have hold : ∀ q, ((s.rank q).pushed.map (ahead dist s')).sum ≤
        ((s.rank q).pushed.map (ahead dist s)).sum := by
      intro q
      apply List.sum_le_sum
      intro e he
      apply ahead_le hd hc hc' heffect ⟨q, he⟩
      refine ⟨q, ?_⟩
      rw [hpushed]
      split
      · exact List.mem_cons_of_mem _ he
      · exact he
    have hnew : ahead dist s' e₀ ≤ 2 * maxDist dist + 2 := by
      have hp : Pushed s' e₀ := ⟨r, by rw [hpushed, if_pos rfl]; exact List.mem_cons_self ..⟩
      obtain ⟨p, hat, -⟩ := hc'.existsUnique_at hp
      rw [hc'.ahead_eq hat]
      exact weight_le dist e₀ p
    have hrank : ∀ q, ((s'.rank q).pushed.map (ahead dist s')).sum ≤
        ((s.rank q).pushed.map (ahead dist s)).sum +
          if q = r then 2 * maxDist dist + 2 else 0 := by
      intro q
      have hq := hold q
      rw [hpushed]
      split
      · rw [List.map_cons, List.sum_cons]
        omega
      · exact hq
    calc totalAhead dist s' ≤ ∑ q, (((s.rank q).pushed.map (ahead dist s)).sum +
          if q = r then 2 * maxDist dist + 2 else 0) := Finset.sum_le_sum fun q _ => hrank q
      _ = totalAhead dist s + (2 * maxDist dist + 2) := by
        rw [Finset.sum_add_distrib]
        simp [totalAhead]

end Steps

/-! ### While nothing is pushed -/

theorem Ongoing.pushed {a : Action n} (ha : Ongoing s r a) (h : ResultsOk net s)
    (hs : next net s (r, a) = some s') (q : Fin n) :
    (s'.rank q).pushed = (s.rank q).pushed := by
  have hstep := h.stepped hs
  by_cases hq : q = r
  · subst hq
    apply hstep.pushed h
    rintro k id nb size owner data rfl
    cases ha
  · rw [hstep.rank_of_ne hq]

/-- Some element has moved closer to its owner since `s`, or none has moved. -/
def Closer (dist : Fin n → Fin n → ℕ) (s u : State n) : Prop :=
  totalAhead dist u < totalAhead dist s ∨
    totalAhead dist u = totalAhead dist s ∧ ∀ e p, At s e p → At u e p

theorem Closer.refl (s : State n) : Closer dist s s := .inr ⟨rfl, fun _ _ => id⟩

theorem Closer.trans {u : State n} (h : Closer dist s s') (h' : Closer dist s' u) :
    Closer dist s u := by
  rcases h with hlt | ⟨heq, hstay⟩
  · rcases h' with hlt' | ⟨heq', -⟩
    · exact .inl (hlt'.trans hlt)
    · exact .inl (heq'.trans_lt hlt)
  · rcases h' with hlt' | ⟨heq', hstay'⟩
    · exact .inl (hlt'.trans_eq heq)
    · exact .inr ⟨heq'.trans heq, fun e p he => hstay' e p (hstay e p he)⟩

/-- No ongoing step leads the elements away from their owners. -/
theorem Ongoing.closer {a : Action n} (ha : Ongoing s r a) (hd : Routes net dist)
    (h : RunOk net s) (h' : RunOk net s') (hs : next net s (r, a) = some s') :
    Closer dist s s' :=
  totalAhead_of_move hd h.conserved h'.conserved (h.results.effect (h.results.stepped hs))
    (ha.pushed h.results hs)

end Titus.Results
