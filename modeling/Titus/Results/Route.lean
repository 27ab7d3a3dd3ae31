import Titus.Lib.Descent
import Titus.Startup.Selector

/-! The way of a batch of results through the ranks.  Whatever the locks, the room on the segments
and the order of the flushes are, a batch goes from its producer along the next hops to its owner,
and is never sent twice over the same hop. -/

namespace Titus.Results

open Descent (walk)
open Startup (VictimSelection Installed hops)

variable {n : ℕ} {net : Network n} {sel : VictimSelection n} {dist : Fin n → Fin n → ℕ}
  {s s' t : State n}
  {e : BufferElt n} {p p' : Place n} {r q : Fin n} {as : List (Fin n × Action n)} {fuel : ℕ}

/-! ### The ranks that an element visits -/

/-- The rank that has element `e`. -/
def holder (s : State n) (e : BufferElt n) : Option (Fin n) :=
  (List.finRange n).find? fun q => ∃ k, e ∈ elements (s.segment q) (s.rank q) k

/-- The ranks that have had element `e` along a run, each when the one before has it no more. -/
def visited (net : Network n) (e : BufferElt n) : State n → List (Fin n × Action n) → List (Fin n)
  | s, [] => (holder s e).toList
  | s, a :: as =>
    match next net s a with
    | none => (holder s e).toList
    | some s' =>
      if holder s' e = holder s e then visited net e s' as
      else (holder s e).toList ++ visited net e s' as

/-- The ranks on the way from the producer of `e` to its owner, for `hops` hops at most. -/
def route (net : Network n) (hops : ℕ) (e : BufferElt n) : List (Fin n) :=
  walk (fun r => some (net.selectNextHopTo r e.owner)) e.owner hops e.batch.producer

theorem Routes.lowers (hd : Routes net dist) (owner : Fin n) :
    Descent.Lowers (fun r => some (net.selectNextHopTo r owner)) owner (fun _ => True)
      (dist · owner) :=
  fun r _ hne => ⟨_, rfl, trivial, hd r owner hne.symm⟩

theorem Conserved.holder_eq (hc : Conserved s) (h : At s e p) : holder s e = some p.2 := by
  have hsome : (holder s e).isSome := by
    rw [holder, List.find?_isSome]
    exact ⟨p.2, List.mem_finRange p.2, decide_eq_true ⟨p.1, h⟩⟩
  obtain ⟨q, hq⟩ := Option.isSome_iff_exists.mp hsome
  rw [hq]
  rw [holder] at hq
  have hfound := List.find?_some hq
  obtain ⟨k, hk⟩ := of_decide_eq_true hfound
  have hat : At s e (k, q) := hk
  rw [(hc.existsUnique_at (hc.pushed_of_at h)).unique h hat]

theorem Conserved.holder_eq_none (hc : Conserved s) (h : ¬ Pushed s e) : holder s e = none := by
  rw [holder, List.find?_eq_none]
  intro q _ hq
  obtain ⟨k, hk⟩ := of_decide_eq_true hq
  have hat : At s e (k, q) := hk
  exact h (hc.pushed_of_at hat)

theorem visited_of_holder_eq {a : Fin n × Action n} (hs : next net s a = some s')
    (h : holder s' e = holder s e) : visited net e s (a :: as) = visited net e s' as := by
  simp only [visited, hs, h, if_true]

theorem visited_of_holder_ne {a : Fin n × Action n} (hs : next net s a = some s')
    (h : holder s' e ≠ holder s e) :
    visited net e s (a :: as) = (holder s e).toList ++ visited net e s' as := by
  simp only [visited, hs, h, if_false]

/-! ### One step -/

theorem Effect.pushed_mono (h : Effect net r s s') (hp : Pushed s e) : Pushed s' e := by
  obtain ⟨q, hq⟩ := hp
  refine ⟨q, ?_⟩
  cases h with
  | move hpushed =>
    rw [hpushed]
    exact hq
  | push e₀ k hk hproducer hseq hpushed =>
    rw [hpushed]
    split
    · exact List.mem_cons_of_mem _ hq
    · exact hq

/-- A batch that has just been pushed is on the rank that has pushed it. -/
theorem Effect.at_producer (h : Effect net r s s') (hno : ¬ Pushed s e) (hp : Pushed s' e) :
    ∃ k, At s' e (k, e.batch.producer) := by
  obtain ⟨q, hq⟩ := hp
  cases h with
  | move hpushed =>
    rw [hpushed] at hq
    exact absurd ⟨q, hq⟩ hno
  | push e₀ k hk hproducer hseq hpushed hcopies =>
    have heq : e = e₀ := by
      rw [hpushed] at hq
      split at hq
      · exact (List.mem_cons.mp hq).resolve_right fun hold => hno ⟨q, hold⟩
      · exact absurd ⟨q, hq⟩ hno
    subst heq
    refine ⟨k, at_iff.mpr ?_⟩
    rw [hcopies, hproducer, if_pos ⟨rfl, rfl⟩]
    exact Nat.succ_pos _

/-- An element stays on its rank or goes on to the next hop. -/
theorem Move.rank (h : Move net e p p') :
    p'.2 = p.2 ∨ e.owner ≠ p.2 ∧ p'.2 = net.selectNextHopTo p.2 e.owner := by
  cases h with
  | reserve | putAside | submit => exact .inl rfl
  | forward r hne | forwardTransiting r hne => exact .inr ⟨hne, rfl⟩

/-! ### A run -/

/-- What the run of a batch from a place of its own is like. -/
structure OnRoute (net : Network n) (e : BufferElt n) (way ranks : List (Fin n)) (t : State n) :
    Prop where
  along : ranks <+: way
  whole : ∀ q, At t e (.submitted, q) → ranks = way

theorem walk_succ {hop : Fin n} (hne : e.owner ≠ r) (hhop : net.selectNextHopTo r e.owner = hop) :
    walk (fun r => some (net.selectNextHopTo r e.owner)) e.owner (fuel + 1) r =
      r :: walk (fun r => some (net.selectNextHopTo r e.owner)) e.owner fuel hop := by
  simp only [walk, hne.symm, if_false, hhop]

/-- From where it is, a batch goes along the hops that lead to its owner. -/
theorem onRoute_of_at (hd : Routes net dist) (hr : (system net).Reachable s)
    (hrun : (system net).run s as = some t) (h : At s e p) (hfuel : dist p.2 e.owner ≤ fuel) :
    OnRoute net e (walk (fun r => some (net.selectNextHopTo r e.owner)) e.owner fuel p.2)
      (visited net e s as) t := by
  induction as generalizing s p fuel with
  | nil =>
    cases hrun
    have hc := (conserved_invariant net).holds hr
    have hvisited : visited net e t [] = [p.2] := by
      simp only [visited, hc.holder_eq h, Option.toList_some]
    rw [hvisited]
    have hcons : ∃ l, walk (fun r => some (net.selectNextHopTo r e.owner)) e.owner fuel p.2 =
        p.2 :: l := by
      cases fuel with
      | zero => exact ⟨[], rfl⟩
      | succ fuel =>
        by_cases hne : e.owner = p.2
        · exact ⟨[], by simp only [walk, hne, if_true]⟩
        · exact ⟨_, walk_succ hne rfl⟩
    constructor
    · obtain ⟨l, hl⟩ := hcons
      rw [hl]
      exact ⟨l, rfl⟩
    · intro q hq
      have howner : e.owner = q := hc.legal e _ (at_iff.mp hq)
      have hplace := (hc.existsUnique_at (hc.pushed_of_at h)).unique h hq
      rw [hplace, ← howner]
      cases fuel <;> simp [walk]
  | cons a as ih =>
    obtain ⟨s', hs, hrest⟩ := Option.bind_eq_some_iff.mp hrun
    have hc := (conserved_invariant net).holds hr
    have hr' := hr.step hs
    have hc' := (conserved_invariant net).holds hr'
    have hok := (results_invariant net).holds hr
    have heffect := hok.effect (hok.stepped hs)
    obtain ⟨p', hat', -⟩ := hc'.existsUnique_at (heffect.pushed_mono (hc.pushed_of_at h))
    have hrank : p'.2 = p.2 ∨ e.owner ≠ p.2 ∧ p'.2 = net.selectNextHopTo p.2 e.owner := by
      rcases hc.moved heffect h hat' with rfl | hmove
      · exact .inl rfl
      · exact hmove.rank
    rcases hrank with heq | ⟨hne, heq⟩
    · rw [visited_of_holder_eq hs (by rw [hc.holder_eq h, hc'.holder_eq hat', heq]), ← heq]
      apply ih hr' hrest hat'
      rwa [heq]
    · have hlt := hd p.2 e.owner hne
      have hhop := net.hop_ne p.2 e.owner hne
      obtain ⟨fuel, rfl⟩ : ∃ k, fuel = k + 1 := Nat.exists_eq_add_one.mpr (by omega)
      rw [visited_of_holder_ne hs, walk_succ hne heq.symm, hc.holder_eq h]
      · have hon := ih hr' hrest hat' (show dist p'.2 e.owner ≤ fuel by rw [heq]; omega)
        constructor
        · exact List.prefix_cons_inj _ |>.mpr hon.along
        · intro q hq
          exact congrArg (p.2 :: ·) (hon.whole q hq)
      · rw [hc.holder_eq h, hc'.holder_eq hat', heq]
        exact fun hc => hhop (Option.some.inj hc)

/-- Before a batch is pushed nobody has it. -/
theorem onRoute_of_not_pushed (hd : Routes net dist) (hr : (system net).Reachable s)
    (hrun : (system net).run s as = some t) (hno : ¬ Pushed s e) (hp : Pushed t e)
    (hfuel : dist e.batch.producer e.owner ≤ fuel) :
    OnRoute net e (route net fuel e) (visited net e s as) t := by
  induction as generalizing s with
  | nil =>
    cases hrun
    exact absurd hp hno
  | cons a as ih =>
    obtain ⟨s', hs, hrest⟩ := Option.bind_eq_some_iff.mp hrun
    have hc := (conserved_invariant net).holds hr
    have hr' := hr.step hs
    have hc' := (conserved_invariant net).holds hr'
    have hok := (results_invariant net).holds hr
    have heffect := hok.effect (hok.stepped hs)
    by_cases hnew : Pushed s' e
    · obtain ⟨k, hat⟩ := heffect.at_producer hno hnew
      have hholder := hc'.holder_eq hat
      rw [visited_of_holder_ne hs, hc.holder_eq_none hno, Option.toList_none, List.nil_append]
      · exact onRoute_of_at hd hr' hrest hat hfuel
      · rw [hholder, hc.holder_eq_none hno]
        rintro ⟨⟩
    · rw [visited_of_holder_eq hs (by rw [hc.holder_eq_none hno, hc'.holder_eq_none hnew])]
      exact ih hr' hrest hnew

/-- In every run, a batch of results visits ranks along the one route from its producer to its
owner, none of them twice; when it is submitted it has gone the whole way. -/
theorem results_follow_route (hsel : Installed sel net) (hi : (system net).init s)
    (hrun : (system net).run s as = some t) (hp : Pushed t e) :
    visited net e s as <+: route net (hops sel) e ∧ (visited net e s as).Nodup ∧
      (visited net e s as).length ≤ hops sel + 1 ∧
      ∀ q, At t e (.submitted, q) → visited net e s as = route net (hops sel) e := by
  have hd := hsel.routes
  have hno : ¬ Pushed s e := by
    rintro ⟨q, hq⟩
    rw [(hi.2 q).pushed] at hq
    cases hq
  have hon := onRoute_of_not_pushed hd (.init hi) hrun hno hp
    (Startup.distance_le_hops sel e.batch.producer e.owner)
  have hnodup : (route net (hops sel) e).Nodup :=
    Descent.nodup_walk (hd.lowers e.owner) trivial _
  refine ⟨hon.along, hon.along.sublist.nodup hnodup, ?_, hon.whole⟩
  exact hon.along.length_le.trans (Descent.length_walk_le _ _)

/-- Rank 0 puts three results of rank 1 on its own segment and sends them to rank 1, which submits
them. -/
def sendAndSubmit : List (Fin 2 × Action 2) :=
  reserveAndWait ++ List.replicate 9 (0, .advance) ++
    [(1, .land 0 0), (1, .deliver 0), (1, .flush)] ++ List.replicate 7 (1, .advance)

theorem results_follow_route_direct :
    ∃ t, (system (direct 2)).run constructed sendAndSubmit = some t ∧
      At t ⟨4, 3, 3, 1, [7, 8, 9], ⟨0, 0, 0⟩⟩ (.submitted, 1) ∧
      visited (direct 2) ⟨4, 3, 3, 1, [7, 8, 9], ⟨0, 0, 0⟩⟩ constructed sendAndSubmit = [0, 1] := by
  have hany : ((system (direct 2)).run constructed sendAndSubmit).any (fun t =>
      copiesAt t ⟨4, 3, 3, 1, [7, 8, 9], ⟨0, 0, 0⟩⟩ (.submitted, 1) = 1) = true := by decide +kernel
  obtain ⟨t, hrun, hcopies⟩ := (Option.any_eq_true _ _).mp hany
  have hat : At t ⟨4, 3, 3, 1, [7, 8, 9], ⟨0, 0, 0⟩⟩ (.submitted, 1) := by
    apply at_iff.mpr
    rw [of_decide_eq_true hcopies]
    exact Nat.one_pos
  have hpushed := ((conserved_invariant (direct 2)).holds
    ((Transition.System.Reachable.init constructed_init).run hrun)).pushed_of_at hat
  have hroute := results_follow_route (Startup.installed_random (by decide)) constructed_init
    hrun hpushed
  exact ⟨t, hrun, hat, (hroute.2.2.2 1 hat).trans (by decide)⟩

end Titus.Results
