import Titus.VictimSelector.RegularGraphRepair

/-! Which runs of the generator of regular graphs end with a simple regular graph that has the edges
added before. -/

namespace Titus.VictimSelector

open TablePermutation Rewiring

variable {nbRank degree : ℕ} {s s' : RegularGenerator}

/-! ### Harmless steps -/

/-- The half edges that `drawn` selects leave the edges in use alone, and a parallel edge is not
swapped with an edge to the same rank. -/
def HarmlessDraw (nbRank degree : ℕ) (s : RegularGenerator) (drawn : ℕ) : GeneratorPhase → Prop
  | .shuffling i => i < s.availableHalfEdges →
      KeepsPairs nbRank degree s i (shuffleTarget s.availableHalfEdges i drawn)
  | .loops i =>
    let test := toRank (drawn % (nbRank * degree))
    i < nbRank * degree ∧ s.neighbors i = some (i / degree) →
      loopAccepts degree s.neighbors i test = true → KeepsAdded degree s test
  | .parallels n i j =>
    let a := n * degree + i
    let test := drawn % (nbRank * degree)
    n < nbRank ∧ i < degree ∧ j < degree ∧ s.neighbors a = s.neighbors (n * degree + j) →
      parallelAccepts degree s.neighbors a test = true →
        KeepsAdded degree s test ∧ s.neighbors test ≠ s.neighbors a
  | .adding | .pairing | .returned | .undefined => True

/-- The step does not use an index that a swap has made stale, and what it draws does no harm. -/
def Harmless (nbRank degree : ℕ) (s : RegularGenerator) : GeneratorAction → Prop
  | .addNeighboring rankA rankB => KeepsIndex nbRank degree s rankA rankB
  | .addRandomNeighbors => True
  | .go drawn => HarmlessDraw nbRank degree s drawn s.phase

instance (rankA rankB : ℕ) : Decidable (KeepsIndex nbRank degree s rankA rankB) :=
  inferInstanceAs (Decidable (_ ∨ _))

instance (i target : ℕ) : Decidable (KeepsPairs nbRank degree s i target) :=
  inferInstanceAs (Decidable (_ ∨ _))

instance (test : ℕ) : Decidable (KeepsAdded degree s test) :=
  inferInstanceAs (Decidable (_ → _))

instance (drawn : ℕ) (phase : GeneratorPhase) :
    Decidable (HarmlessDraw nbRank degree s drawn phase) :=
  match phase with
  | .shuffling _ => inferInstanceAs (Decidable (_ → _))
  | .loops _ => inferInstanceAs (Decidable (_ → _ → _))
  | .parallels _ _ _ => inferInstanceAs (Decidable (_ → _ → _))
  | .adding | .pairing | .returned | .undefined => inferInstanceAs (Decidable True)

instance (a : GeneratorAction) : Decidable (Harmless nbRank degree s a) :=
  match a with
  | .addNeighboring rankA rankB =>
    inferInstanceAs (Decidable (KeepsIndex nbRank degree s rankA rankB))
  | .addRandomNeighbors => inferInstanceAs (Decidable True)
  | .go drawn => inferInstanceAs (Decidable (HarmlessDraw nbRank degree s drawn s.phase))

/-! ### The invariant of the harmless steps -/

/-- The entries `p` and `q` of the row of `rank` have been compared, and the repair is at the pair
`i`, `j` of the row of `n`. -/
def Compared (n i j rank p q : ℕ) : Prop :=
  rank < n ∨ (rank = n ∧ (p < i ∨ (p = i ∧ q < j)))

/-- What holds of a table of less than `2 ^ 16` half edges. -/
inductive GeneratorOk (nbRank degree : ℕ) (s : RegularGenerator) : Prop
  | adding (hphase : s.phase = .adding) (h : PairingOk nbRank degree s)
      (htaken : Taken nbRank degree s)
  | shuffling {i : ℕ} (hphase : s.phase = .shuffling i) (h : PairingOk nbRank degree s)
  | pairing (hphase : s.phase = .pairing) (h : PairingOk nbRank degree s)
  | loops {i : ℕ} (hphase : s.phase = .loops i) (h : RepairOk nbRank degree s)
      (hle : i ≤ nbRank * degree) (hbefore : ∀ h < i, s.neighbors h ≠ ownerOf degree h)
  | parallels {n i j : ℕ} (hphase : s.phase = .parallels n i j) (h : RepairOk nbRank degree s)
      (hij : i < j) (hloops : NoLoops nbRank degree s.neighbors)
      (hcompared : ∀ rank < nbRank, ∀ q < degree, ∀ p < q, Compared n i j rank p q →
        s.neighbors (rank * degree + p) ≠ s.neighbors (rank * degree + q))
  | returned (hphase : s.phase = .returned) (h : RepairOk nbRank degree s)
      (hloops : NoLoops nbRank degree s.neighbors)
      (hcompared : ∀ rank < nbRank, ∀ q < degree, ∀ p < q,
        s.neighbors (rank * degree + p) ≠ s.neighbors (rank * degree + q))

theorem RepairOk.congr (h : RepairOk nbRank degree s) (hneighbors : s'.neighbors = s.neighbors)
    (hadded : s'.added = s.added) : RepairOk nbRank degree s' := by
  constructor
  · rw [hneighbors]
    exact h.balanced
  · rw [hneighbors, hadded]
    exact h.kept

theorem RepairOk.loopStep (h : RepairOk nbRank degree s) (hlt : nbRank * degree < 2 ^ 16)
    {i drawn : ℕ} (hphase : s.phase = .loops i) (hle : i ≤ nbRank * degree)
    (hbefore : ∀ h < i, s.neighbors h ≠ ownerOf degree h)
    (hok : Harmless nbRank degree s (.go drawn)) :
    GeneratorOk nbRank degree (loopStep nbRank degree s i drawn) := by
  simp only [Harmless, HarmlessDraw, hphase] at hok
  unfold VictimSelector.loopStep
  simp only
  split
  · refine .parallels (n := 0) (i := 0) (j := 1) rfl (h.congr rfl rfl) Nat.zero_lt_one ?_ ?_
    · intro k hk
      exact hbefore k (by omega)
    · rintro rank hrank q hq p hp (hlt | ⟨-, hlt | ⟨rfl, hlt⟩⟩) <;> omega
  · rename_i hi
    have hi : i < nbRank * degree := by omega
    have hnext : toRank (i + 1) = i + 1 := Nat.mod_eq_of_lt (by omega)
    rw [hnext]
    split
    · rename_i hloop
      have hdrawn : toRank (drawn % (nbRank * degree)) = drawn % (nbRank * degree) :=
        Nat.mod_eq_of_lt ((Nat.mod_lt _ (by omega)).trans hlt)
      rw [hdrawn] at hok ⊢
      have htest : drawn % (nbRank * degree) < nbRank * degree := Nat.mod_lt _ (by omega)
      generalize drawn % (nbRank * degree) = test at hok htest ⊢
      split
      · rename_i haccepts
        obtain ⟨b, d, hb, hd, howner, hother, hj⟩ := h.loop_ends hi htest hloop hbefore haccepts
        obtain ⟨hne, -, -⟩ := loopAccepts_iff.mp haccepts
        rw [hb, hd]
        refine .loops (i := i + 1) rfl (h.swapped hj ?_ (hok ⟨hi, hloop⟩ haccepts) rfl rfl) hi ?_
        · intro e he heq
          rw [howner, Sym2.eq_iff, or_self] at heq
          exact absurd (Option.some.inj (heq.1.trans heq.2.symm)) (h.kept e he).1
        · intro k hk
          refine rewire_ne_owner hj (fun heq => hne (Option.some.inj heq)) ?_ ?_
          · rw [howner]
            exact hother.symm
          · intro hki
            exact hbefore k (by omega)
      · exact .loops hphase h hle hbefore
    · rename_i hloop
      refine .loops (i := i + 1) rfl (h.congr rfl rfl) hi fun k hk => ?_
      rcases Nat.lt_succ_iff_lt_or_eq.mp hk with hk | rfl
      · exact hbefore k hk
      · exact hloop

theorem two_le_multiplicity {neighbors : ℕ → Option ℕ} {rank i j : ℕ} (hij : i < j)
    (hj : j < degree) (heq : neighbors (rank * degree + i) = neighbors (rank * degree + j)) :
    2 ≤ multiplicity degree neighbors rank (neighbors (rank * degree + i)) := by
  have hpair : List.Subperm [i, j] (List.range degree) := by
    apply List.subperm_of_subset
    · exact List.nodup_cons.mpr ⟨by simp [hij.ne], List.nodup_singleton j⟩
    · intro k hk
      simp only [List.mem_cons, List.not_mem_nil, or_false] at hk
      rw [List.mem_range]
      omega
  refine le_trans (le_of_eq ?_) (hpair.countP_le _)
  simp [heq]

theorem RepairOk.parallelStep (h : RepairOk nbRank degree s) {n i j drawn : ℕ}
    (hphase : s.phase = .parallels n i j) (hij : i < j)
    (hloops : NoLoops nbRank degree s.neighbors)
    (hcompared : ∀ rank < nbRank, ∀ q < degree, ∀ p < q, Compared n i j rank p q →
      s.neighbors (rank * degree + p) ≠ s.neighbors (rank * degree + q))
    (hok : Harmless nbRank degree s (.go drawn)) :
    GeneratorOk nbRank degree (parallelStep nbRank degree s n i j drawn) := by
  simp only [Harmless, HarmlessDraw, hphase] at hok
  unfold VictimSelector.parallelStep
  simp only
  split
  · rename_i hn
    refine .returned rfl (h.congr rfl rfl) hloops fun rank hrank q hq p hp => ?_
    exact hcompared rank hrank q hq p hp (.inl (by omega))
  · rename_i hn
    split
    · -- the row has been compared
      rename_i hi
      refine .parallels (n := n + 1) (i := 0) (j := 1) rfl (h.congr rfl rfl) Nat.zero_lt_one hloops ?_
      intro rank hrank q hq p hp hdone
      apply hcompared rank hrank q hq p hp
      unfold Compared at hdone ⊢
      omega
    · rename_i hi
      split
      · refine .parallels (n := n) (i := i + 1) (j := i + 2) rfl (h.congr rfl rfl) (by omega)
          hloops ?_
        intro rank hrank q hq p hp hdone
        apply hcompared rank hrank q hq p hp
        unfold Compared at hdone ⊢
        omega
      · rename_i hj
        split
        · rename_i hparallel
          have ha : n * degree + i < nbRank * degree := row_lt (by omega) (by omega)
          have htest : drawn % (nbRank * degree) < nbRank * degree := Nat.mod_lt _ (by omega)
          generalize drawn % (nbRank * degree) = test at hok htest ⊢
          split
          · rename_i haccepts
            obtain ⟨hkeeps, hdifferent⟩ := hok ⟨by omega, by omega, by omega, hparallel⟩ haccepts
            obtain ⟨b, d, hb, hd, hjoined, howners, hfresh⟩ :=
              h.parallel_ends hloops ha htest haccepts hdifferent
            have hnodup := howners
            simp only [List.map_cons, List.map_nil, List.nodup_cons, List.mem_cons,
              List.not_mem_nil, or_false, not_or] at hnodup
            obtain ⟨⟨hab, hac, had⟩, ⟨hbc, hbd⟩, -⟩ := hnodup
            rw [hb, hd]
            refine .parallels (n := n) (i := i) (j := j + 1) rfl
              (h.swapped hjoined ?_ hkeeps rfl rfl) (by omega) ?_ ?_
            · intro e he heq
              constructor
              · rw [row_div (by omega)]
                exact two_le_multiplicity hij (by omega) hparallel
              · intro hsame
                rcases Sym2.eq_iff.mp hsame with ⟨heq, -⟩ | ⟨heq, -⟩
                · exact hac heq
                · exact had heq
            · intro k hk
              exact rewire_ne_owner hjoined hac hbd fun _ => hloops k hk
            · intro rank hrank q hq p hp hdone
              refine rewire_ne_rewire hjoined howners hfresh (row_lt hrank (hp.trans hq))
                (row_lt hrank hq) (by omega) ?_ ?_
              · rw [ownerOf, ownerOf, row_div (hp.trans hq), row_div hq]
              · intro hpa
                apply hcompared rank hrank q hq p hp
                have hnow : ¬ (rank = n ∧ p = i) := by
                  rintro ⟨rfl, rfl⟩
                  exact hpa rfl
                unfold Compared at hdone ⊢
                omega
          · exact .parallels hphase h hij hloops hcompared
        · rename_i hne
          refine .parallels (n := n) (i := i) (j := j + 1) rfl (h.congr rfl rfl) (by omega) hloops ?_
          intro rank hrank q hq p hp hdone
          by_cases hnow : rank = n ∧ p = i ∧ q = j
          · obtain ⟨rfl, rfl, rfl⟩ := hnow
            exact hne
          · apply hcompared rank hrank q hq p hp
            unfold Compared at hdone ⊢
            omega

theorem GeneratorOk.next (hlt : nbRank * degree < 2 ^ 16) (h : GeneratorOk nbRank degree s)
    {a : GeneratorAction} (hok : Harmless nbRank degree s a)
    (hs : nextGenerator nbRank degree s a = some s') : GeneratorOk nbRank degree s' := by
  cases a with
  | addNeighboring rankA rankB =>
    simp only [nextGenerator] at hs
    split at hs
    · rename_i hguard
      obtain ⟨hphase, hA, hB, hAB, -⟩ := hguard
      cases h with
      | adding _ h htaken =>
        obtain ⟨h', htaken'⟩ := h.addNeighboring htaken hA hB hAB hok hs
        refine .adding ?_ h' htaken'
        unfold addNeighboring at hs
        simp only [Option.bind_eq_some_iff, Option.map_eq_some_iff] at hs
        obtain ⟨_, _, _, _, _, _, rfl⟩ := hs
        exact hphase
      | shuffling hphase' | pairing hphase' | loops hphase' | parallels hphase'
      | returned hphase' =>
        rw [hphase] at hphase'
        cases hphase'
    · cases hs
  | addRandomNeighbors =>
    simp only [nextGenerator] at hs
    split at hs
    · rename_i hphase
      cases hs
      cases h with
      | adding _ h htaken => exact .shuffling rfl ⟨h.permutes, h.even, h.used, h.le, h.joined⟩
      | shuffling hphase' | pairing hphase' | loops hphase' | parallels hphase'
      | returned hphase' =>
        rw [hphase] at hphase'
        cases hphase'
    · cases hs
  | go drawn =>
    cases h with
    | adding hphase h htaken =>
      simp only [nextGenerator, hphase] at hs
      cases hs
    | @shuffling i hphase h =>
      simp only [nextGenerator, hphase] at hs
      split at hs
      · rename_i hi
        cases hs
        simp only [Harmless, HarmlessDraw, hphase] at hok
        have hle := h.le
        have htarget : shuffleTarget s.availableHalfEdges i drawn < s.availableHalfEdges := by
          obtain ⟨m, hm⟩ := h.even
          have hmod := Nat.mod_lt drawn (show 0 < s.availableHalfEdges - 1 by omega)
          unfold shuffleTarget
          simp only
          split <;> omega
        exact .shuffling (i := i + 1) rfl
          (h.swapAt (hi.trans_le hle) (htarget.trans_le hle) (hok hi) rfl rfl rfl)
      · cases hs
        exact .pairing rfl ⟨h.permutes, h.even, h.used, h.le, h.joined⟩
    | pairing hphase h =>
      simp only [nextGenerator, hphase] at hs
      split at hs
      · rename_i havailable
        cases hs
        exact .pairing hphase (h.addRandomNeighbor havailable drawn)
      · cases hs
        obtain ⟨m, hm⟩ := h.even
        obtain ⟨hbalanced, hkept⟩ := h.rebuild (by omega)
        exact .loops (i := 0) rfl ⟨hbalanced, hkept⟩ (Nat.zero_le _)
          fun k hk => absurd hk k.not_lt_zero
    | loops hphase h hle hbefore =>
      simp only [nextGenerator, hphase] at hs
      cases hs
      exact h.loopStep hlt hphase hle hbefore hok
    | parallels hphase h hij hloops hcompared =>
      simp only [nextGenerator, hphase] at hs
      cases hs
      exact h.parallelStep hphase hij hloops hcompared hok
    | returned hphase h hloops hcompared =>
      simp only [nextGenerator, hphase] at hs
      cases hs

/-! ### The graph at the end -/

/-- `neighbors` is the table of a simple graph whose ranks have `degree` neighbors each. -/
structure SimpleRegular (nbRank degree : ℕ) (neighbors : ℕ → Option ℕ) : Prop where
  symmetric : ∀ a < nbRank, ∀ b < nbRank,
    multiplicity degree neighbors a (some b) = multiplicity degree neighbors b (some a)
  regular : ∀ a < nbRank,
    ((Finset.range nbRank).filter fun b => areNeighbors degree neighbors a (some b)).card = degree
  irreflexive : ∀ a < nbRank, areNeighbors degree neighbors a (some a) = false
  distinct : ∀ a < nbRank, ∀ j < degree, ∀ i < j,
    neighbors (a * degree + i) ≠ neighbors (a * degree + j)

theorem RepairOk.simpleRegular (h : RepairOk nbRank degree s)
    (hloops : NoLoops nbRank degree s.neighbors)
    (hcompared : ∀ rank < nbRank, ∀ q < degree, ∀ p < q,
      s.neighbors (rank * degree + p) ≠ s.neighbors (rank * degree + q)) :
    SimpleRegular nbRank degree s.neighbors := by
  constructor
  · intro a ha b hb
    have hswap := h.balanced.count_swap (some a) (some b)
    rwa [count_ends, count_ends, if_pos ha, if_pos hb] at hswap
  · intro a ha
    have himage : ((Finset.range nbRank).filter fun b =>
        areNeighbors degree s.neighbors a (some b)) =
          (Finset.range degree).image fun i => (s.neighbors (a * degree + i)).getD 0 := by
      ext b
      simp only [Finset.mem_filter, Finset.mem_range, Finset.mem_image, areNeighbors,
        List.any_eq_true, List.mem_range, decide_eq_true_eq]
      constructor
      · rintro ⟨-, i, hi, heq⟩
        exact ⟨i, hi, by rw [heq, Option.getD_some]⟩
      · rintro ⟨i, hi, rfl⟩
        obtain ⟨rank, hrank, heq⟩ := h.exists_neighbor (row_lt ha hi)
        rw [heq]
        exact ⟨hrank, i, hi, heq⟩
    rw [himage, Finset.card_image_of_injOn, Finset.card_range]
    intro i hi j hj heq
    simp only [Finset.coe_range, Set.mem_Iio] at hi hj
    obtain ⟨rank, -, hrank⟩ := h.exists_neighbor (row_lt ha hi)
    obtain ⟨rank', -, hrank'⟩ := h.exists_neighbor (row_lt ha hj)
    simp only [hrank, hrank', Option.getD_some] at heq
    rw [← heq] at hrank'
    rcases Nat.lt_trichotomy i j with hij | rfl | hij
    · exact absurd (hrank.trans hrank'.symm) (hcompared a ha j hj i hij)
    · rfl
    · exact absurd (hrank'.trans hrank.symm) (hcompared a ha i hi j hij)
  · intro a ha
    rw [← Bool.not_eq_true, areNeighbors_iff ha, mem_ends]
    rintro ⟨k, hk, howner, htarget⟩
    exact hloops k hk (htarget.trans howner.symm)
  · exact hcompared

/-- From `2 ^ 16` half edges on, the repair does not come to an end. -/
def Unfinished : GeneratorPhase → Prop
  | .adding | .shuffling _ | .pairing | .undefined => True
  | .loops i => i < 2 ^ 16
  | .parallels _ _ _ | .returned => False

theorem unfinished_next (hge : 2 ^ 16 ≤ nbRank * degree) (h : Unfinished s.phase)
    {a : GeneratorAction} (hs : nextGenerator nbRank degree s a = some s') :
    Unfinished s'.phase := by
  cases a with
  | addNeighboring rankA rankB =>
    simp only [nextGenerator] at hs
    split at hs
    · unfold addNeighboring at hs
      simp only [Option.bind_eq_some_iff, Option.map_eq_some_iff] at hs
      obtain ⟨_, _, _, _, _, _, rfl⟩ := hs
      exact h
    · cases hs
  | addRandomNeighbors =>
    simp only [nextGenerator] at hs
    split at hs
    · cases hs
      trivial
    · cases hs
  | go drawn =>
    cases hphase : s.phase with
    | shuffling i =>
      simp only [nextGenerator, hphase] at hs
      split at hs <;> cases hs <;> trivial
    | pairing =>
      simp only [nextGenerator, hphase] at hs
      split at hs <;> cases hs
      · change Unfinished s.phase
        rw [hphase]
        trivial
      · exact Nat.two_pow_pos 16
    | loops i =>
      rw [hphase] at h
      simp only [nextGenerator, hphase] at hs
      cases hs
      have hnext : Unfinished (.loops (toRank (i + 1))) := Nat.mod_lt _ (Nat.two_pow_pos 16)
      change i < 2 ^ 16 at h
      unfold loopStep swapEdges
      simp only
      split
      · omega
      · repeat' split
        · exact hnext
        · trivial
        · rw [hphase]
          exact h
        · exact hnext
    | adding | returned | undefined =>
      simp only [nextGenerator, hphase] at hs
      cases hs
    | parallels n i j =>
      rw [hphase] at h
      cases h

theorem simpleRegular_of_returned (heven : Even (nbRank * degree))
    (hr : ((regularGenerator nbRank degree).restrict (Harmless nbRank degree)).Reachable s) :
    (s.phase = .returned → SimpleRegular nbRank degree s.neighbors ∧
      ∀ e ∈ s.added, areNeighbors degree s.neighbors e.1 (some e.2) = true ∧
        areNeighbors degree s.neighbors e.2 (some e.1) = true) ∧
    (nbRank * degree < 2 ^ 16 → s.phase ≠ .undefined) := by
  rcases Nat.lt_or_ge (nbRank * degree) (2 ^ 16) with hlt | hge
  · have hinv : ((regularGenerator nbRank degree).restrict
        (Harmless nbRank degree)).Invariant (GeneratorOk nbRank degree) := by
      constructor
      · rintro _ rfl
        exact .adding rfl (pairingOk_new heven hlt) taken_new
      · intro s a s' _ h hs
        obtain ⟨hok, hs⟩ := Transition.System.next_restrict.mp hs
        exact h.next hlt hok hs
    cases hinv.holds hr with
    | adding hphase | shuffling hphase | pairing hphase | loops hphase | parallels hphase =>
      rw [hphase]
      exact ⟨nofun, fun _ => nofun⟩
    | returned hphase h hloops hcompared =>
      refine ⟨fun _ => ⟨h.simpleRegular hloops hcompared, fun e he => ?_⟩, fun _ => ?_⟩
      · obtain ⟨-, hmem⟩ := h.kept e he
        have hmem' := h.balanced.mem_swap hmem
        obtain ⟨k, hk, howner, -⟩ := mem_ends.mp hmem
        obtain ⟨k', hk', howner', -⟩ := mem_ends.mp hmem'
        have hlt : e.1 < nbRank := Option.some.inj howner ▸ div_lt hk
        have hlt' : e.2 < nbRank := Option.some.inj howner' ▸ div_lt hk'
        exact ⟨(areNeighbors_iff hlt).mpr hmem, (areNeighbors_iff hlt').mpr hmem'⟩
      · rw [hphase]
        nofun
  · have hinv : ((regularGenerator nbRank degree).restrict
        (Harmless nbRank degree)).Invariant fun s => Unfinished s.phase := by
      constructor
      · rintro _ rfl
        trivial
      · intro s a s' _ h hs
        exact unfinished_next hge h (Transition.System.next_restrict.mp hs).2
    have hunfinished := hinv.holds hr
    refine ⟨fun hphase => ?_, fun hlt => absurd hlt (by omega)⟩
    rw [hphase] at hunfinished
    cases hunfinished

/-- The actions of a run, with what `rand()` returns up to the last `zeros` times. -/
def generatorRun (added : List (ℕ × ℕ)) (drawn : List ℕ) (zeros : ℕ) : List GeneratorAction :=
  (added.map fun e => .addNeighboring e.1 e.2) ++ [.addRandomNeighbors] ++
    (drawn ++ List.replicate zeros 0).map .go

theorem simpleRegular_of_returned_four : ∃ s : RegularGenerator,
    (s.phase = .returned ∧ s.added = [(0, 1)]) ∧ SimpleRegular 4 3 s.neighbors ∧
      ∀ e ∈ s.added, areNeighbors 3 s.neighbors e.1 (some e.2) = true ∧
        areNeighbors 3 s.neighbors e.2 (some e.1) = true := by
  obtain ⟨s, hr, hphase, hadded⟩ := Transition.System.exists_reachable
    (S := (regularGenerator 4 3).restrict (Harmless 4 3)) (s := newGenerator 4 3) rfl
    (generatorRun [(0, 1)] ([1, 0, 6, 3, 6, 11, 8, 3, 3, 6, 0, 11, 7, 7, 11] ++
      List.replicate 7 0 ++ [9] ++ List.replicate 11 0 ++ [9]) 25)
    (fun s => s.phase = .returned ∧ s.added = [(0, 1)]) (by decide +kernel)
  exact ⟨s, ⟨hphase, hadded⟩, (simpleRegular_of_returned (by decide) hr).1 hphase⟩

/-- A parallel edge is swapped with an edge to the same rank, which becomes its own neighbor; and an
added edge is lost in the shuffling. -/
theorem returned_with_loop_or_without_edge :
    (∃ s, (regularGenerator 4 3).Reachable s ∧ s.phase = .returned ∧ s.added = [] ∧
      areNeighbors 3 s.neighbors 1 (some 1) = true) ∧
    (∃ s, (regularGenerator 6 3).Reachable s ∧ s.phase = .returned ∧ s.added = [(1, 0)] ∧
      areNeighbors 3 s.neighbors 1 (some 0) = false) := by
  constructor
  · exact Transition.System.exists_reachable
      (S := regularGenerator 4 3) (s := newGenerator 4 3) rfl
      (generatorRun [] ([5, 0, 0, 2, 0, 0, 6, 8, 0, 0, 0, 11, 0, 0, 0, 0, 1, 4, 7] ++
        List.replicate 17 0 ++ [11, 0, 0, 0, 0, 8]) 20)
      (fun s => s.phase = .returned ∧ s.added = [] ∧ areNeighbors 3 s.neighbors 1 (some 1) = true)
      (by decide +kernel)
  · exact Transition.System.exists_reachable
      (S := regularGenerator 6 3) (s := newGenerator 6 3) rfl
      (generatorRun [(1, 0)]
        [0, 0, 0, 0, 0, 0, 2, 0, 0, 5, 4, 0, 0, 0, 9, 0, 0, 0, 0, 4, 0, 17, 0, 16] 64)
      (fun s => s.phase = .returned ∧ s.added = [(1, 0)] ∧
        areNeighbors 3 s.neighbors 1 (some 0) = false)
      (by decide +kernel)

end Titus.VictimSelector
