import Titus.VictimSelector.RegularGraphPairing

/-! The repair passes of the generator of regular graphs, and the graph that is left at their end. -/

namespace Titus.VictimSelector

open TablePermutation Rewiring

variable {nbRank degree : ℕ} {s s' : RegularGenerator} {neighbors : ℕ → Option ℕ}

/-! ### Rows -/

/-- How often `x` is in the row of `rank`. -/
def multiplicity (degree : ℕ) (neighbors : ℕ → Option ℕ) (rank : ℕ) (x : Option ℕ) : ℕ :=
  (List.range degree).countP fun i => neighbors (rank * degree + i) = x

theorem row_div {rank i : ℕ} (hi : i < degree) : (rank * degree + i) / degree = rank := by
  rw [Nat.mul_comm, Nat.mul_add_div (Nat.zero_lt_of_lt hi), Nat.div_eq_of_lt hi, Nat.add_zero]

theorem row_lt {rank i : ℕ} (hrank : rank < nbRank) (hi : i < degree) :
    rank * degree + i < nbRank * degree :=
  calc rank * degree + i < (rank + 1) * degree := by rw [Nat.succ_mul]; omega
    _ ≤ nbRank * degree := Nat.mul_le_mul_right degree hrank

theorem div_lt {h : ℕ} (hh : h < nbRank * degree) : h / degree < nbRank :=
  Nat.div_lt_of_lt_mul (by rwa [Nat.mul_comm])

theorem mod_lt {h : ℕ} (hh : h < nbRank * degree) : h % degree < degree :=
  Nat.mod_lt _ (Nat.pos_of_lt_mul_left hh)

theorem count_ends (degree : ℕ) (neighbors : ℕ → Option ℕ) (nbRank rank : ℕ) (x : Option ℕ) :
    (ends (nbRank * degree) (ownerOf degree) neighbors).count (some rank, x) =
      if rank < nbRank then multiplicity degree neighbors rank x else 0 := by
  induction nbRank with
  | zero => simp [ends]
  | succ m ih =>
    have hrow : (((Multiset.range degree).map (m * degree + ·)).map fun h =>
        (ownerOf degree h, neighbors h)).count (some rank, x) =
          if rank = m then multiplicity degree neighbors rank x else 0 := by
      rw [Multiset.map_map, Multiset.count_map]
      split
      · rename_i heq
        rw [heq, multiplicity, ← Multiset.coe_countP, Multiset.countP_eq_card_filter]
        congr 1
        apply Multiset.filter_congr
        intro i hi
        have hi := Multiset.mem_range.mp hi
        simp only [Function.comp_apply, ownerOf, row_div hi, Prod.mk.injEq, true_and]
        exact eq_comm
      · rename_i hne
        rw [Multiset.card_eq_zero, Multiset.filter_eq_nil]
        intro i hi heq
        have hi := Multiset.mem_range.mp hi
        simp only [Function.comp_apply, ownerOf, row_div hi, Prod.mk.injEq, Option.some.injEq] at heq
        exact hne heq.1
    rw [ends, Nat.succ_mul, Multiset.range_add, Multiset.map_add, Multiset.count_add, hrow]
    change (ends (m * degree) (ownerOf degree) neighbors).count (some rank, x) + _ = _
    rw [ih]
    split <;> split <;> split <;> omega

theorem areNeighbors_iff {rank : ℕ} (hrank : rank < nbRank) {x : Option ℕ} :
    areNeighbors degree neighbors rank x = true ↔
      (some rank, x) ∈ ends (nbRank * degree) (ownerOf degree) neighbors := by
  rw [← Multiset.count_pos, count_ends, if_pos hrank, multiplicity, List.countP_pos_iff,
    areNeighbors, List.any_eq_true]

/-! ### The invariant of the repair -/

/-- What holds from when `neighbors` has been rebuilt. -/
structure RepairOk (nbRank degree : ℕ) (s : RegularGenerator) : Prop where
  balanced : Balanced (ends (nbRank * degree) (ownerOf degree) s.neighbors)
  kept : ∀ e ∈ s.added, e.1 ≠ e.2 ∧
    (some e.1, some e.2) ∈ ends (nbRank * degree) (ownerOf degree) s.neighbors

/-- The half edge `test` is not an end of an edge that `add_neighboring` has added, or another edge
runs beside it. -/
def KeepsAdded (degree : ℕ) (s : RegularGenerator) (test : ℕ) : Prop :=
  (∃ e ∈ s.added, s(some e.1, some e.2) = s(ownerOf degree test, s.neighbors test)) →
    2 ≤ multiplicity degree s.neighbors (test / degree) (s.neighbors test)

theorem RepairOk.exists_neighbor (h : RepairOk nbRank degree s) {a : ℕ} (ha : a < nbRank * degree) :
    ∃ rank < nbRank, s.neighbors a = some rank := by
  obtain ⟨b, hb, -, howner, -⟩ := exists_partner h.balanced ha
  exact ⟨b / degree, div_lt hb, howner.symm⟩

/-- A search finds a half edge, and none after one that it could find. -/
theorem exists_find_range' {p : ℕ → Bool} {start count k : ℕ} (hle : start ≤ k)
    (hlt : k < start + count) (hk : p k = true) :
    ∃ k' ≤ k, start ≤ k' ∧ p k' = true ∧ (List.range' start count).find? p = some k' := by
  obtain ⟨k', hfind⟩ := Option.isSome_iff_exists.mp
    (List.find?_isSome.mpr ⟨k, List.mem_range'_1.mpr ⟨hle, hlt⟩, hk⟩)
  obtain ⟨hk', hmem, hfirst⟩ := List.find?_range'_eq_some.mp hfind
  refine ⟨k', ?_, (List.mem_range'_1.mp hmem).1, hk', hfind⟩
  by_contra hgt
  have hnot := hfirst k hle (by omega)
  rw [hk] at hnot
  cases hnot

/-- The edges `a`-`b` and `c`-`d` are swapped without the loss of an edge that was added. -/
theorem RepairOk.swapped (h : RepairOk nbRank degree s) {a b c d : ℕ}
    (hj : Joined (nbRank * degree) (ownerOf degree) s.neighbors a b c d)
    (hab : ∀ e ∈ s.added, s(some e.1, some e.2) = s(ownerOf degree a, ownerOf degree b) →
      2 ≤ multiplicity degree s.neighbors (a / degree) (s.neighbors a) ∧
        s(ownerOf degree a, ownerOf degree b) ≠ s(ownerOf degree c, ownerOf degree d))
    (hkeeps : KeepsAdded degree s c)
    (hs : s'.neighbors = rewire (ownerOf degree) s.neighbors a b c d)
    (hadded : s'.added = s.added) : RepairOk nbRank degree s' := by
  have hcount : ∀ h < nbRank * degree, ∀ x y,
      s(some x, some y) = s(ownerOf degree h, s.neighbors h) →
        (ends (nbRank * degree) (ownerOf degree) s.neighbors).count (some x, some y) =
          multiplicity degree s.neighbors (h / degree) (s.neighbors h) := by
    intro h' hh' x y heq
    have hends := count_ends degree s.neighbors nbRank (h' / degree) (s.neighbors h')
    rw [if_pos (div_lt hh')] at hends
    rw [← hends]
    rcases Sym2.eq_iff.mp heq with ⟨hx, hy⟩ | ⟨hx, hy⟩
    · rw [hx, hy]
      rfl
    · rw [hx, hy, h.balanced.count_swap]
      rfl
  constructor
  · rw [hs]
    exact balanced_rewire h.balanced hj
  · rw [hadded, hs]
    intro e he
    obtain ⟨hne, hmem⟩ := h.kept e he
    refine ⟨hne, mem_ends_rewire hj (fun heq => hne (Option.some.inj heq)) hmem ?_ ?_⟩
    · intro heq
      obtain ⟨htwo, hother⟩ := hab e he heq
      rw [hcount a hj.lt.1 _ _ (by rw [heq, hj.left.1]), heq]
      exact ⟨htwo, hother⟩
    · intro heq
      rw [← hj.right.1] at heq
      rw [hcount c hj.lt.2.2.1 _ _ heq]
      exact hkeeps ⟨e, he, heq⟩

theorem div_eq_of_between {h k l : ℕ} (hhk : h ≤ k) (hkl : k ≤ l) (heq : l / degree = h / degree) :
    k / degree = h / degree :=
  le_antisymm ((Nat.div_le_div_right hkl).trans heq.le) (Nat.div_le_div_right hhk)

/-- A half edge leads to a row, and a search of that row finds an end to come back from. -/
theorem RepairOk.exists_other_end (h : RepairOk nbRank degree s) {test : ℕ}
    (htest : test < nbRank * degree) :
    ∃ rank < nbRank, s.neighbors test = some rank ∧ ∀ (p : ℕ → Bool) (count : ℕ), degree ≤ count →
      (∀ j, j ≠ test → s.neighbors j = some (test / degree) → p j = true) →
      ∃ d < nbRank * degree, d / degree = rank ∧ p d = true ∧
        (List.range' (rank * degree) count).find? p = some d := by
  obtain ⟨d₀, hd₀, hne, howner, htarget⟩ := exists_partner h.balanced htest
  refine ⟨d₀ / degree, div_lt hd₀, howner.symm, fun p count hcount hp => ?_⟩
  have hmod := mod_lt hd₀
  have hdiv := Nat.div_add_mod' d₀ degree
  obtain ⟨d, hle, hstart, hd, hfind⟩ := exists_find_range' (show d₀ / degree * degree ≤ d₀ by omega)
    (show d₀ < d₀ / degree * degree + count by omega) (hp d₀ hne htarget)
  have hfirst : d₀ / degree * degree / degree = d₀ / degree :=
    Nat.mul_div_cancel _ (Nat.zero_lt_of_lt hmod)
  exact ⟨d, hle.trans_lt hd₀, (div_eq_of_between hstart hle hfirst.symm).trans hfirst, hd, hfind⟩

/-! ### Self-connecting edges -/

theorem loopAccepts_iff {i test : ℕ} : loopAccepts degree neighbors i test = true ↔
    i / degree ≠ test / degree ∧
      areNeighbors degree neighbors (i / degree) (some (test / degree)) ≠ true ∧
      areNeighbors degree neighbors (i / degree) (neighbors test) ≠ true := by
  rw [loopAccepts, decide_eq_true_eq, not_or, not_or]

/-- The ends of a loop and of the edge that it is swapped with are found. -/
theorem RepairOk.loop_ends (h : RepairOk nbRank degree s) {i test : ℕ} (hi : i < nbRank * degree)
    (htest : test < nbRank * degree) (hloop : s.neighbors i = some (i / degree))
    (hbefore : ∀ h < i, s.neighbors h ≠ ownerOf degree h)
    (haccepts : loopAccepts degree s.neighbors i test = true) :
    ∃ b d, findEnd s.neighbors (i + 1) (degree - i % degree - 1) (i / degree) i = some b ∧
      ((s.neighbors test).bind fun rank =>
        findEnd s.neighbors (rank * degree) (nbRank * degree - rank * degree) (test / degree) test) =
          some d ∧
      ownerOf degree b = ownerOf degree i ∧ ownerOf degree d ≠ ownerOf degree i ∧
      Joined (nbRank * degree) (ownerOf degree) s.neighbors i b test d := by
  obtain ⟨hne, hfar, hfar'⟩ := loopAccepts_iff.mp haccepts
  obtain ⟨b₀, hb₀, hbi, hbowner, hbtarget⟩ := exists_partner h.balanced hi
  have hbrow : b₀ / degree = i / degree := Option.some.inj (hbowner.trans hloop)
  have hafter : i < b₀ := by
    by_contra hle
    exact hbefore b₀ (by omega) (hbtarget.trans (congrArg some hbrow.symm))
  have hlast : b₀ < i + 1 + (degree - i % degree - 1) := by
    have hdiv := Nat.div_add_mod' i degree
    have hdiv' := Nat.div_add_mod' b₀ degree
    have hmod' := mod_lt hb₀
    rw [hbrow] at hdiv'
    omega
  obtain ⟨b, hle, hib, hb, hfind⟩ := exists_find_range'
    (p := fun j => j ≠ i ∧ s.neighbors j = some (i / degree)) hafter hlast
    (decide_eq_true ⟨hbi, hbtarget⟩)
  have hb := of_decide_eq_true hb
  have hrowb : b / degree = i / degree := div_eq_of_between (by omega) hle hbrow
  obtain ⟨rank, hrank, hrankeq, hother⟩ := h.exists_other_end htest
  have hroom : degree ≤ nbRank * degree - rank * degree := by
    have hmul := Nat.mul_le_mul_right degree hrank
    rw [Nat.succ_mul] at hmul
    omega
  obtain ⟨d, hd, hrowd, hdspec, hfind'⟩ := hother (fun j => j ≠ test ∧
    s.neighbors j = some (test / degree)) _ hroom fun j hj hj' => decide_eq_true ⟨hj, hj'⟩
  obtain ⟨hdtest, hdtarget⟩ := of_decide_eq_true hdspec
  have hdi : rank ≠ i / degree := by
    rintro rfl
    apply hfar'
    rw [hrankeq, areNeighbors_iff (div_lt hi)]
    exact mem_ends.mpr ⟨i, hi, rfl, hloop⟩
  refine ⟨b, d, hfind, ?_, congrArg some hrowb, ?_, ?_⟩
  · rw [hrankeq]
    exact hfind'
  · rw [ownerOf, ownerOf, hrowd]
    exact fun heq => hdi (Option.some.inj heq)
  · constructor
    · exact ⟨hi, hle.trans_lt hb₀, htest, hd⟩
    · refine ⟨hb.1.symm, ?_, ?_, ?_, ?_, hdtest.symm⟩
      · rintro rfl
        exact hne rfl
      · rintro rfl
        exact hdi hrowd.symm
      · rintro rfl
        exact hne hrowb.symm
      · rintro rfl
        exact hdi (hrowd.symm.trans hrowb)
    · exact ⟨hloop.trans (congrArg some hrowb.symm), hb.2⟩
    · exact ⟨hrankeq.trans (congrArg some hrowd.symm), hdtarget⟩

/-! ### Parallel edges -/

theorem parallelAccepts_iff {a test rank : ℕ} (ha : neighbors a = some rank) :
    parallelAccepts degree neighbors a test = true ↔
      a / degree ≠ test / degree ∧
        areNeighbors degree neighbors (a / degree) (some (test / degree)) ≠ true ∧
        areNeighbors degree neighbors rank (neighbors test) ≠ true := by
  rw [parallelAccepts, decide_eq_true_eq, not_or, not_or, ha, Option.any_some]

/-- No half edge leads to its own rank. -/
def NoLoops (nbRank degree : ℕ) (neighbors : ℕ → Option ℕ) : Prop :=
  ∀ h < nbRank * degree, neighbors h ≠ ownerOf degree h

/-- The ends of a parallel edge and of the edge that it is swapped with are found, and they belong
to four ranks that get new neighbors. -/
theorem RepairOk.parallel_ends (h : RepairOk nbRank degree s)
    (hloops : NoLoops nbRank degree s.neighbors) {a test : ℕ} (ha : a < nbRank * degree)
    (htest : test < nbRank * degree)
    (haccepts : parallelAccepts degree s.neighbors a test = true)
    (hdifferent : s.neighbors test ≠ s.neighbors a) :
    ∃ b d, ((s.neighbors a).bind fun rank => (List.range' (rank * degree) degree).find? fun k =>
        s.neighbors k = some (a / degree)) = some b ∧
      ((s.neighbors test).bind fun rank =>
        findEnd s.neighbors (rank * degree) degree (test / degree) test) = some d ∧
      Joined (nbRank * degree) (ownerOf degree) s.neighbors a b test d ∧
      ([a, b, test, d].map (ownerOf degree)).Nodup ∧
      ∀ h ∈ [a, b, test, d], (ownerOf degree h, rewire (ownerOf degree) s.neighbors a b test d h) ∉
        ends (nbRank * degree) (ownerOf degree) s.neighbors := by
  obtain ⟨n, hn, hna, hother⟩ := h.exists_other_end ha
  obtain ⟨rank, hrank, hrankeq, hother'⟩ := h.exists_other_end htest
  obtain ⟨hne, hfar, hfar'⟩ := (parallelAccepts_iff hna).mp haccepts
  obtain ⟨b, hb, hrowb, hbspec, hfind⟩ := hother (fun j => s.neighbors j = some (a / degree))
    degree le_rfl fun j _ hj => decide_eq_true hj
  have hbtarget := of_decide_eq_true hbspec
  obtain ⟨d, hd, hrowd, hdspec, hfind'⟩ := hother' (fun j => j ≠ test ∧
    s.neighbors j = some (test / degree)) degree le_rfl fun j hj hj' => decide_eq_true ⟨hj, hj'⟩
  obtain ⟨hdtest, hdtarget⟩ := of_decide_eq_true hdspec
  rw [Ne, areNeighbors_iff (div_lt ha)] at hfar
  rw [Ne, areNeighbors_iff hn, hrankeq] at hfar'
  have han : a / degree ≠ n := fun heq => hloops a ha (hna.trans (congrArg some heq.symm))
  have htestrank : test / degree ≠ rank := fun heq =>
    hloops test htest (hrankeq.trans (congrArg some heq.symm))
  have hntest : n ≠ test / degree := by
    rintro rfl
    exact hfar (mem_ends.mpr ⟨a, ha, rfl, hna⟩)
  have hnrank : n ≠ rank := by
    rintro rfl
    exact hdifferent (hrankeq.trans hna.symm)
  have harank : a / degree ≠ rank := by
    rintro rfl
    exact hfar' (mem_ends.mpr ⟨b, hb, congrArg some hrowb, hbtarget⟩)
  have hj : Joined (nbRank * degree) (ownerOf degree) s.neighbors a b test d := by
    constructor
    · exact ⟨ha, hb, htest, hd⟩
    · refine ⟨?_, ?_, ?_, ?_, ?_, hdtest.symm⟩ <;> rintro rfl
      · exact han hrowb
      · exact hne rfl
      · exact harank hrowd
      · exact hntest hrowb.symm
      · exact hnrank (hrowb.symm.trans hrowd)
    · exact ⟨hna.trans (congrArg some hrowb.symm), hbtarget⟩
    · exact ⟨hrankeq.trans (congrArg some hrowd.symm), hdtarget⟩
  refine ⟨b, d, ?_, ?_, hj, ?_, ?_⟩
  · rw [hna]
    exact hfind
  · rw [hrankeq]
    exact hfind'
  · simp only [ownerOf, List.map_cons, List.map_nil, hrowb, hrowd, List.nodup_cons, List.mem_cons,
      List.not_mem_nil, or_false, Option.some.injEq, not_or, not_false_eq_true, List.nodup_nil,
      and_true]
    exact ⟨⟨han, hne, harank⟩, ⟨hntest, hnrank⟩, htestrank⟩
  · obtain ⟨hra, hrb, hrc, hrd⟩ := rewire_eq hj
    have hac : (ownerOf degree a, ownerOf degree test) ∉
        ends (nbRank * degree) (ownerOf degree) s.neighbors := hfar
    have hbd : (ownerOf degree b, ownerOf degree d) ∉
        ends (nbRank * degree) (ownerOf degree) s.neighbors := by
      rw [ownerOf, ownerOf, hrowb, hrowd]
      exact hfar'
    simp only [List.forall_mem_cons, hra, hrb, hrc, hrd]
    exact ⟨hac, hbd, fun hmem => hac (h.balanced.mem_swap hmem),
      fun hmem => hbd (h.balanced.mem_swap hmem), nofun⟩

end Titus.VictimSelector
